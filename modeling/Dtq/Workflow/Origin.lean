import Dtq.Lib.Indexed
import Dtq.Lib.Transition
import Dtq.Workflow.Tracking

/-!
# Which step a task was launched for

A task keeps the name it was launched under, not the step. The names of two steps may be equal, and
a step may be called like the sibling of another one, so a name may stand for tasks of several
steps. Here every run keeps a log that gives each task its step.

`advance` files the tasks under their names and takes a name for completed when the last task filed
there has succeeded. That says something about the steps of the name only when the tasks filed
under it are the tasks of those steps.

## Main result

* `dependencies_finished` — when the dependencies of a step have finished before it is launched
-/

set_option autoImplicit false

namespace Dtq

open Transition

/-! ### The log -/

/-- The tasks that a call of `advance` sets out to create. -/
def World.planOf (w : World) (wf : WorkflowRow) (rows : List TaskRow) : List (Option Launch) :=
  let c := Collected.ofTasks w.stores.db rows
  c.plan wf.steps (c.namesIn rows .succeeded)

/-- The plan of an event. `submit` plans on the row it has just created. -/
def World.planOfAct (w : World) : World.Act → List (Option Launch)
  | .submit workflowId name steps _ _ _ =>
    let wf : WorkflowRow := ⟨workflowId, name, steps, .running⟩
    (w.withWorkflow wf).planOf wf ((w.withWorkflow wf).tasksOf workflowId)
  | .advance workflowId rows _ _ =>
    match w.findWorkflow workflowId with
    | some wf => w.planOf wf rows
    | none => []
  | .lease _ | .succeed .. | .die _ => []

/-- The tasks that were created, with the steps of the launches they were created for. -/
def assign (plan : List (Option Launch)) (created : List TaskRow) : List (Uuid × WorkflowStep) :=
  (plan.zip created).filterMap fun entry => entry.1.map fun launch => (entry.2.id, launch.step)

/-- The world, with the step of every task. -/
structure Traced where
  world : World
  origin : List (Uuid × WorkflowStep)

namespace Traced

/-- Nothing has happened. -/
def empty : Traced := ⟨.empty, []⟩

/-- One event; the tasks it commits are logged. -/
def step (s : Traced) (a : World.Act) : Option Traced :=
  (s.world.step a).map fun w' =>
    ⟨w', s.origin ++ assign (s.world.planOfAct a)
      (w'.stores.db.tasks.drop s.world.stores.db.tasks.length)⟩

/-- The task was created for a step of that name, as its own task or as a sibling. -/
def LaunchedFor (s : Traced) (row : TaskRow) (name : String) : Prop :=
  ∃ entry ∈ s.origin, entry.1 = row.id ∧ entry.2.name = name

instance (s : Traced) (row : TaskRow) (name : String) : Decidable (s.LaunchedFor row name) :=
  inferInstanceAs (Decidable (∃ entry ∈ s.origin, _))

/-- Some task of the workflow was created for a step of that name, and all that were have
succeeded. -/
def Finished (s : Traced) (workflowId : Uuid) (name : String) : Prop :=
  (∃ row ∈ s.world.tasksOf workflowId, s.LaunchedFor row name) ∧
    ∀ row ∈ s.world.tasksOf workflowId, s.LaunchedFor row name → row.state = .succeeded

instance (s : Traced) (workflowId : Uuid) (name : String) :
    Decidable (s.Finished workflowId name) :=
  inferInstanceAs (Decidable ((∃ row ∈ s.world.tasksOf workflowId, _) ∧
    ∀ row ∈ s.world.tasksOf workflowId, _ → _))

/-- For every task that the step from `s` to `s'` has created, the dependencies of its step have
finished. -/
def DependenciesFinished (s s' : Traced) : Prop :=
  ∀ workflowId, ∀ row ∈ s'.world.tasksOf workflowId,
    row.id ∉ s.world.stores.db.tasks.map TaskRow.id →
      ∀ step, (row.id, step) ∈ s'.origin → ∀ dep ∈ step.dependsOn, s'.Finished workflowId dep

/-- As soon as a task filed under the name has succeeded, the steps of that name have finished. -/
def Settled (s : Traced) (workflowId : Uuid) (name : String) : Prop :=
  (∃ row ∈ s.world.tasksOf workflowId, row.filedUnder = some name ∧ row.state = .succeeded) →
    s.Finished workflowId name

/-- The names on which the steps that have no task yet depend are settled. -/
def DependenciesSettled (s : Traced) (wf : WorkflowRow) : Prop :=
  ∀ step ∈ wf.steps, (∀ row ∈ s.world.tasksOf wf.id, row.filedUnder ≠ some step.name) →
    ∀ dep ∈ step.dependsOn, s.Settled wf.id dep

end Traced

/-! ### Clear names -/

/-- The name is borne by one step at most, and by no sibling of a step that fans out. -/
structure ClearName (steps : List WorkflowStep) (name : String) : Prop where
  once : steps.countP (fun step => step.name = name) ≤ 1
  apart : ∀ step ∈ steps, step.fanOutField ≠ none → ∀ i, name ≠ WorkflowStep.siblingName step.name i

theorem countP_flatMap_le {α β : Type*} {l : List α} {f : α → List β} {p : β → Bool}
    {q : α → Bool} (h : ∀ a ∈ l, (f a).countP p ≤ if q a then 1 else 0) :
    (l.flatMap f).countP p ≤ l.countP q := by
  induction l with
  | nil => simp
  | cons a l ih =>
    have hhead := h a List.mem_cons_self
    have htail := ih fun b hb => h b (List.mem_cons_of_mem _ hb)
    rw [List.flatMap_cons, List.countP_append, List.countP_cons]
    omega

theorem ClearName.eq_of_taskName {steps : List WorkflowStep} {name : String}
    (hclear : ClearName steps name) {step : WorkflowStep} (hstep : step ∈ steps)
    (htask : step.TaskName name) : step.fanOutField = none ∧ step.name = name := by
  cases hfield : step.fanOutField with
  | none => exact ⟨rfl, ((WorkflowStep.taskName_of_plain hfield).mp htask).symm⟩
  | some field =>
    obtain ⟨i, hi⟩ := (WorkflowStep.taskName_of_fan hfield).mp htask
    exact absurd hi (hclear.apart step hstep (by simp [hfield]) i)

/-- A plan has one launch under a clear name at most. -/
theorem Collected.countP_plan_le (c : Collected) {steps : List WorkflowStep}
    (completed : List String) {name : String} (hclear : ClearName steps name) :
    (c.plan steps completed).countP (fun entry => entry.map Launch.stepName = some name) ≤ 1 := by
  set chosen := (getReadySteps steps completed).filter fun step => c.states step.name = none
  have hsub : chosen.Sublist steps := List.filter_sublist.trans List.filter_sublist
  refine (countP_flatMap_le fun step hstep => ?_).trans ((hsub.countP_le).trans hclear.once)
  cases hexpand : step.expand c.results with
  | none => simp
  | some launches =>
    obtain ⟨hnames, hnodup⟩ := WorkflowStep.expand_names hexpand
    simp only [List.countP_map, Function.comp_def, Option.map_some, Option.some.injEq]
    by_cases hname : step.name = name
    · have hcount := List.nodup_iff_count_le_one.mp hnodup name
      rw [List.count, List.countP_map] at hcount
      rw [if_pos (by simpa using hname)]
      exact le_of_eq_of_le (List.countP_congr fun launch _ => by simp) hcount
    · have hzero : launches.countP (fun launch => decide (launch.stepName = name)) = 0 := by
        rw [List.countP_eq_zero]
        intro launch hlaunch heq
        have htask := (hnames launch hlaunch).2
        rw [of_decide_eq_true heq] at htask
        exact hname (hclear.eq_of_taskName (hsub.subset hstep) htask).2
      simp [hzero]

/-! ### What a call adds to the log -/

section Assign

variable {workflowId : Uuid} {plan : List (Option Launch)} {ids : List Uuid}
  {created : List TaskRow}

/-- Every created task has an entry, with the step of a launch that was planned under its name. -/
theorem forall₂_assign (h : List.Forall₂ (CreatedFor workflowId) (plan.zip ids) created)
    (hlength : plan.length ≤ ids.length) :
    List.Forall₂ (fun row entry => ∃ launch, some launch ∈ plan ∧
      row.stepName = some launch.stepName ∧ entry = (row.id, launch.step))
      created (assign plan created) := by
  induction plan generalizing ids created with
  | nil =>
    obtain rfl : created = [] := by simpa using h
    exact .nil
  | cons planned rest ih =>
    cases ids with
    | nil => exact absurd hlength (by simp)
    | cons taskId ids =>
      rw [List.zip_cons_cons, List.forall₂_cons_left_iff] at h
      obtain ⟨row, created, ⟨launch, n, hlaunch, rfl⟩, hrest, rfl⟩ := h
      obtain rfl : planned = some launch := hlaunch
      refine .cons ⟨launch, List.mem_cons_self, rfl, rfl⟩ ?_
      refine (ih hrest (by simpa using hlength)).imp fun row entry hentry => ?_
      obtain ⟨other, hother, hname⟩ := hentry
      exact ⟨other, List.mem_cons_of_mem _ hother, hname⟩

/-- Every planned launch is logged. -/
theorem exists_assign_of_planned (h : List.Forall₂ (CreatedFor workflowId) (plan.zip ids) created)
    (hlength : plan.length ≤ ids.length) {launch : Launch} (hlaunch : some launch ∈ plan) :
    ∃ row ∈ created, (row.id, launch.step) ∈ assign plan created := by
  induction plan generalizing ids created with
  | nil => exact absurd hlaunch List.not_mem_nil
  | cons planned rest ih =>
    cases ids with
    | nil => exact absurd hlength (by simp)
    | cons taskId ids =>
      rw [List.zip_cons_cons, List.forall₂_cons_left_iff] at h
      obtain ⟨row, created, ⟨first, n, hfirst, rfl⟩, hrest, rfl⟩ := h
      obtain rfl : planned = some first := hfirst
      rcases List.mem_cons.mp hlaunch with heq | hlaunch
      · obtain rfl := Option.some.inj heq
        exact ⟨_, List.mem_cons_self, List.mem_cons_self⟩
      · obtain ⟨row, hrow, hentry⟩ := ih hrest (by simpa using hlength) hlaunch
        exact ⟨row, List.mem_cons_of_mem _ hrow, List.mem_cons_of_mem _ hentry⟩

theorem map_fst_assign (h : List.Forall₂ (CreatedFor workflowId) (plan.zip ids) created)
    (hlength : plan.length ≤ ids.length) :
    (assign plan created).map Prod.fst = created.map TaskRow.id := by
  have hassign := forall₂_assign h hlength
  clear h
  generalize assign plan created = entries at hassign
  induction hassign with
  | nil => rfl
  | cons hhead _ ih =>
    obtain ⟨launch, -, -, rfl⟩ := hhead
    rw [List.map_cons, List.map_cons, ih]

end Assign

/-! ### What a call does -/

namespace Traced

variable {s s' : Traced} {wf : WorkflowRow} {rows : List TaskRow} {ids : List Uuid}

/-- A workflow's row is inserted. -/
def withWorkflow (s : Traced) (wf : WorkflowRow) : Traced :=
  { s with world := s.world.withWorkflow wf }

/-- A call of `advance` on the running workflow, whose tasks were returned as `rows`. -/
structure Call (s s' : Traced) (wf : WorkflowRow) (rows : List TaskRow) (ids : List Uuid) :
    Prop where
  find : s.world.findWorkflow wf.id = some wf
  running : wf.state = .running
  perm : rows.Perm (s.world.tasksOf wf.id)
  outcome : s.world.Outcome wf rows ids s'.world
  origin : s'.origin = s.origin ++ assign (s.world.planOf wf rows)
    (s'.world.stores.db.tasks.drop s.world.stores.db.tasks.length)

theorem assign_nil (plan : List (Option Launch)) : assign plan [] = [] := by
  simp [assign]

theorem call_of_advance {now : ℚ} (hfind : s.world.findWorkflow wf.id = some wf)
    (hrunning : wf.state = .running) (h : s.step (.advance wf.id rows ids now) = some s') :
    Call s s' wf rows ids := by
  obtain ⟨w', hw', rfl⟩ := Option.map_eq_some_iff.mp h
  rcases World.advance_cases hw' with ⟨-, hfinal⟩ | ⟨found, hfound, -, hperm, hout⟩
  · exact absurd hrunning (hfinal wf hfind)
  · obtain rfl := Option.mem_unique hfind hfound
    exact ⟨hfind, hrunning, hperm, hout, by simp [World.planOfAct, hfind]⟩

/-- Every event is progress on a task, a call, the creation of a workflow with the call that
follows, or changes nothing. -/
theorem step_cases {a : World.Act} (h : s.step a = some s') :
    (s.world.Progress s'.world ∧ s'.origin = s.origin) ∨ s' = s ∨
      (∃ wf rows ids now, a = .advance wf.id rows ids now ∧ Call s s' wf rows ids) ∨
      ∃ wf ids, s.world.findWorkflow wf.id = none ∧ (∃ topo, Sorted wf.steps topo) ∧
        Call (s.withWorkflow wf) s' wf ((s.withWorkflow wf).world.tasksOf wf.id) ids := by
  obtain ⟨w', hw', rfl⟩ := Option.map_eq_some_iff.mp h
  have hsame : ∀ plan, w' = s.world → (⟨w', s.origin ++ assign plan
      (w'.stores.db.tasks.drop s.world.stores.db.tasks.length)⟩ : Traced) = s := by
    rintro plan rfl
    simp [assign_nil]
  rcases World.progress_cases hw' with
    ⟨workflowId, name, steps, order, ids, now, rfl⟩ | ⟨workflowId, rows, ids, now, rfl⟩ | hprogress
  · obtain ⟨hnone, hrefused | ⟨hsorted, hadvance⟩⟩ := World.submit_cases hw'
    · exact Or.inr (Or.inl (hsame _ hrefused))
    · have hfind : (s.world.withWorkflow ⟨workflowId, name, steps, .running⟩).findWorkflow
          workflowId = some ⟨workflowId, name, steps, .running⟩ := by
        rw [World.findWorkflow] at hnone
        simp [World.findWorkflow, World.withWorkflow, List.find?_append, hnone]
      rcases World.advance_cases hadvance with ⟨-, hfinal⟩ | ⟨wf, hwf, hrunning, hperm, hout⟩
      · exact absurd rfl (hfinal _ hfind)
      · obtain rfl := Option.mem_unique hfind hwf
        exact Or.inr (Or.inr (Or.inr ⟨_, ids, hnone, hsorted, hfind, rfl, hperm, hout, rfl⟩))
  · rcases World.advance_cases hw' with ⟨hfinal, -⟩ | ⟨wf, hwf, hrunning, hperm, hout⟩
    · exact Or.inr (Or.inl (hsame _ hfinal))
    · obtain rfl : wf.id = workflowId := (World.mem_of_findWorkflow hwf).2
      exact Or.inr (Or.inr (Or.inl ⟨wf, rows, ids, now, rfl, call_of_advance hwf hrunning h⟩))
  · refine Or.inl ⟨hprogress, ?_⟩
    obtain ⟨-, taskId, state, attempt, row, -, -, htasks⟩ := hprogress
    have hdrop : w'.stores.db.tasks.drop s.world.stores.db.tasks.length = [] := by
      simp [htasks]
    simp [hdrop, assign_nil]

/-- What a call that creates tasks did, or that it has created none. -/
theorem Call.cases (h : Call s s' wf rows ids) :
    (s'.world.stores.db.tasks = s.world.stores.db.tasks ∧ s'.origin = s.origin) ∨
      ∃ created, s'.world.stores.db.tasks = s.world.stores.db.tasks ++ created ∧
        s'.origin = s.origin ++ assign (s.world.planOf wf rows) created ∧
        s.world.Draws ids (s.world.planOf wf rows).length ∧
        List.Forall₂ (CreatedFor wf.id) ((s.world.planOf wf rows).zip ids) created := by
  have hsame : s'.world.stores.db.tasks = s.world.stores.db.tasks → s'.origin = s.origin := by
    intro htasks
    rw [h.origin, htasks, List.drop_length, assign_nil, List.append_nil]
  obtain ⟨w', origin⟩ := s'
  cases h.outcome with
  | failed => exact Or.inl ⟨rfl, hsame rfl⟩
  | completed => exact Or.inl ⟨rfl, hsame rfl⟩
  | raised => exact Or.inl ⟨rfl, hsame rfl⟩
  | launched plan redis created _ _ hplan hids hcreated =>
    subst hplan
    refine Or.inr ⟨created, rfl, ?_, hids, hcreated⟩
    have horigin := h.origin
    rwa [List.drop_left] at horigin

/-- A launch of the plan is one of a step that is ready and has no task filed under its name. -/
theorem exists_ready_of_planned {w : World} {launch : Launch}
    (h : some launch ∈ w.planOf wf rows) :
    launch.step ∈ wf.steps ∧ launch.step.TaskName launch.stepName ∧
      (∀ row ∈ rows, row.filedUnder ≠ some launch.step.name) ∧
      launch.step ∈ getReadySteps wf.steps
        ((Collected.ofTasks w.stores.db rows).namesIn rows .succeeded) := by
  obtain ⟨step, hready, hstate, ⟨-, hnone⟩ | ⟨launches, hexpand, other, hother, heq⟩⟩ :=
    Collected.mem_plan.mp h
  · exact absurd hnone (by simp)
  · obtain rfl := Option.some.inj heq
    obtain ⟨rfl, hname⟩ := (WorkflowStep.expand_names hexpand).1 launch hother
    exact ⟨(mem_getReadySteps.mp hready).1, hname, Collected.states_eq_none_iff.mp hstate, hready⟩

/-! ### The log is complete -/

/-- Every task of the workflow was launched for one of the steps and has one of that step's names;
and a clear name is given to one task only. -/
structure Origins (s : Traced) (workflowId : Uuid) (steps : List WorkflowStep) : Prop where
  launched : ∀ row ∈ s.world.tasksOf workflowId,
    ∃ step ∈ steps, (row.id, step) ∈ s.origin ∧ row.Of step
  once : ∀ name, name ≠ "" → ClearName steps name →
    (s.world.tasksOf workflowId).countP (fun row => row.stepName = some name) ≤ 1

/-- The log has one entry for each of the tasks it knows, and accounts for all tasks. -/
structure Inv (s : Traced) : Prop where
  world : s.world.Inv
  ids : (s.origin.map Prod.fst).Nodup
  known : ∀ entry ∈ s.origin, entry.1 ∈ s.world.stores.db.tasks.map TaskRow.id
  origins : ∀ workflowId wf, s.world.findWorkflow workflowId = some wf →
    Origins s workflowId wf.steps

theorem inv_empty : Inv empty where
  world := World.inv_empty
  ids := List.nodup_nil
  known := fun _ hentry => absurd hentry List.not_mem_nil
  origins := fun _ _ hfind => absurd hfind (by simp [empty, World.empty, World.findWorkflow])

theorem Origins.of_tasksOf_eq {workflowId : Uuid} {steps : List WorkflowStep}
    (h : Origins s workflowId steps)
    (htasks : s'.world.tasksOf workflowId = s.world.tasksOf workflowId)
    (horigin : s.origin ⊆ s'.origin) : Origins s' workflowId steps where
  launched := fun row hrow => by
    rw [htasks] at hrow
    obtain ⟨step, hstep, hentry, hof⟩ := h.launched row hrow
    exact ⟨step, hstep, horigin hentry, hof⟩
  once := by
    rw [htasks]
    exact h.once

/-- A workflow without tasks. -/
theorem Origins.of_nil {workflowId : Uuid} {steps : List WorkflowStep}
    (htasks : s.world.tasksOf workflowId = []) : Origins s workflowId steps where
  launched := fun row hrow => absurd (htasks ▸ hrow) List.not_mem_nil
  once := fun _ _ _ => by simp [htasks]

theorem Origins.progress {workflowId : Uuid} {steps : List WorkflowStep}
    (h : Origins s workflowId steps) (hprogress : s.world.Progress s'.world)
    (horigin : s'.origin = s.origin) : Origins s' workflowId steps := by
  obtain ⟨taskId, state, attempt, found, -, -, htasks⟩ := hprogress.tasksOf_eq
  refine ⟨fun row hrow => ?_, fun name hne hclear => ?_⟩
  · rw [htasks] at hrow
    obtain ⟨old, hold, rfl⟩ := List.mem_map.mp hrow
    obtain ⟨step, hstep, hentry, name, hname, htask⟩ := h.launched old hold
    exact ⟨step, hstep, by simpa [horigin] using hentry, name, by simpa using hname, htask⟩
  · rw [htasks, List.countP_map]
    simpa [Function.comp_def] using h.once name hne hclear

theorem Inv.withWorkflow (h : Inv s) (hnone : s.world.findWorkflow wf.id = none)
    (hsorted : ∃ topo, Sorted wf.steps topo) : Inv (s.withWorkflow wf) where
  world := h.world.withWorkflow hnone hsorted
  ids := h.ids
  known := h.known
  origins := fun workflowId found hfind => by
    cases hold : s.world.findWorkflow workflowId with
    | none => exact .of_nil (h.world.tasksOf_eq_nil hold)
    | some old =>
      have hkept : (s.world.withWorkflow wf).findWorkflow workflowId = some old := by
        rw [World.findWorkflow] at hold
        rw [World.findWorkflow, World.withWorkflow, List.find?_append, hold]
        rfl
      obtain rfl := Option.mem_unique hkept hfind
      exact (h.origins workflowId old hold).of_tasksOf_eq rfl fun _ => id

theorem Inv.progress (h : Inv s) (hprogress : s.world.Progress s'.world)
    (horigin : s'.origin = s.origin) : Inv s' where
  world := h.world.progress hprogress
  ids := horigin ▸ h.ids
  known := fun entry hentry => by
    obtain ⟨-, taskId, state, attempt, row, -, -, htasks⟩ := hprogress
    rw [horigin] at hentry
    rw [htasks, List.map_map]
    simpa [Function.comp_def] using h.known entry hentry
  origins := fun workflowId wf hfind => by
    rw [hprogress.findWorkflow_eq] at hfind
    exact (h.origins workflowId wf hfind).progress hprogress horigin

section Call

variable {created : List TaskRow} (hinv : Inv s)
  (hids : s.world.Draws ids (s.world.planOf wf rows).length)
  (hcreated : List.Forall₂ (CreatedFor wf.id) ((s.world.planOf wf rows).zip ids) created)

include hids hcreated in
theorem id_notMem_of_created {row : TaskRow} (hrow : row ∈ created) :
    row.id ∉ s.world.stores.db.tasks.map TaskRow.id := by
  intro hmem
  obtain ⟨old, hold, heq⟩ := List.mem_map.mp hmem
  have hdrawn : row.id ∈ created.map TaskRow.id := List.mem_map_of_mem hrow
  rw [created_ids hcreated] at hdrawn
  exact hids.2.2 old hold (heq ▸ (drawn_sublist _ ids).subset hdrawn)

include hids hcreated in
/-- A logged task that was created by the call, with its launch. -/
theorem exists_launch_of_assign {entry : Uuid × WorkflowStep}
    (hentry : entry ∈ assign (s.world.planOf wf rows) created) :
    ∃ row ∈ created, ∃ launch, some launch ∈ s.world.planOf wf rows ∧
      row.stepName = some launch.stepName ∧ entry = (row.id, launch.step) :=
  Indexed.exists_of_mem_right (forall₂_assign hcreated hids.1) hentry

include hinv hids hcreated in
theorem Origins.call (hfind : s.world.findWorkflow wf.id = some wf)
    (hperm : rows.Perm (s.world.tasksOf wf.id))
    (htasks : s'.world.tasksOf wf.id = s.world.tasksOf wf.id ++ created)
    (horigin : s'.origin = s.origin ++ assign (s.world.planOf wf rows) created) :
    Origins s' wf.id wf.steps := by
  have hold := hinv.origins wf.id wf hfind
  refine ⟨fun row hrow => ?_, fun name hne hclear => ?_⟩
  · rw [htasks] at hrow
    rw [horigin]
    rcases List.mem_append.mp hrow with hrow | hrow
    · obtain ⟨step, hstep, hentry, hof⟩ := hold.launched row hrow
      exact ⟨step, hstep, List.mem_append_left _ hentry, hof⟩
    · -- a new task comes from the launch planned for it
      obtain ⟨entry, hentry, launch, hlaunch, hname, rfl⟩ :=
        Indexed.exists_of_mem_left (forall₂_assign hcreated hids.1) hrow
      obtain ⟨hstep, htask, -⟩ := exists_ready_of_planned hlaunch
      exact ⟨launch.step, hstep, List.mem_append_right _ hentry, _, hname, htask⟩
  · have hplanned : created.countP (fun row => row.stepName = some name) ≤ 1 := by
      have hcount : (s.world.planOf wf rows).countP _ ≤ 1 := Collected.countP_plan_le _ _ hclear
      have hnames := congrArg (List.countP fun entry => decide (entry = some name))
        (map_stepName_created hcreated hids.1)
      rw [List.countP_map, List.countP_map] at hnames
      exact (le_of_eq hnames).trans hcount
    rw [htasks, List.countP_append]
    by_cases hnew : ∃ row ∈ created, row.stepName = some name
    · -- a task is created under the name: then none was filed there
      obtain ⟨row, hrow, hname⟩ := hnew
      obtain ⟨launch, hlaunch, hlaunchName⟩ := exists_launch_of_created hcreated hrow
      obtain ⟨hstep, htask, hfiled, -⟩ := exists_ready_of_planned hlaunch
      obtain rfl : name = launch.stepName := Option.mem_unique hname hlaunchName
      obtain ⟨-, hstepName⟩ := hclear.eq_of_taskName hstep htask
      have hzero : (s.world.tasksOf wf.id).countP
          (fun row => row.stepName = some launch.stepName) = 0 := by
        rw [List.countP_eq_zero]
        intro old hmem heq
        refine hfiled old (hperm.mem_iff.mpr hmem) ?_
        rw [hstepName]
        exact TaskRow.filedUnder_eq (of_decide_eq_true heq) hne
      omega
    · have hzero : created.countP (fun row => row.stepName = some name) = 0 := by
        rw [List.countP_eq_zero]
        exact fun row hrow heq => hnew ⟨row, hrow, of_decide_eq_true heq⟩
      have hbefore := hold.once name hne hclear
      omega

end Call

theorem Inv.call (h : Inv s) (hcall : Call s s' wf rows ids) : Inv s' := by
  have hworld : s'.world.Inv :=
    h.world.outcome (World.mem_of_findWorkflow hcall.find).1 hcall.outcome
  have hother : ∀ workflowId, workflowId ≠ wf.id → s.origin ⊆ s'.origin →
      ∀ found, s'.world.findWorkflow workflowId = some found →
        Origins s' workflowId found.steps := by
    intro workflowId hne horigin found hfind
    obtain ⟨htasks, hrow⟩ := hcall.outcome.other hne
    exact (h.origins workflowId found (hrow ▸ hfind)).of_tasksOf_eq htasks horigin
  have hsteps : ∀ found, s'.world.findWorkflow wf.id = some found → found.steps = wf.steps := by
    intro found hfind
    obtain ⟨state, hrow⟩ := hcall.outcome.row hcall.find
    rw [← Option.mem_unique hrow hfind]
  rcases hcall.cases with ⟨htasks, horigin⟩ | ⟨created, htasks, horigin, hids, hcreated⟩
  · refine ⟨hworld, horigin ▸ h.ids, fun entry hentry => ?_, fun workflowId found hfind => ?_⟩
    · rw [htasks]
      exact h.known entry (horigin ▸ hentry)
    · by_cases hne : workflowId = wf.id
      · subst hne
        rw [hsteps found hfind]
        exact (h.origins wf.id wf hcall.find).of_tasksOf_eq (World.tasksOf_congr htasks wf.id)
          fun entry => horigin ▸ id
      · exact hother workflowId hne (fun entry => horigin ▸ id) found hfind
  · have hfst := map_fst_assign hcreated hids.1
    refine ⟨hworld, ?_, fun entry hentry => ?_, fun workflowId found hfind => ?_⟩
    · -- ids are drawn without repetition and are not in the table, where all known ones are
      rw [horigin, List.map_append, List.nodup_append, hfst]
      refine ⟨h.ids, ?_, fun a ha b hb hab => ?_⟩
      · rw [created_ids hcreated]
        exact hids.2.1.sublist (drawn_sublist _ ids)
      · obtain ⟨entry, hentry, rfl⟩ := List.mem_map.mp ha
        obtain ⟨row, hrow, rfl⟩ := List.mem_map.mp hb
        exact id_notMem_of_created hids hcreated hrow (hab ▸ h.known entry hentry)
    · rw [htasks, List.map_append]
      rw [horigin] at hentry
      rcases List.mem_append.mp hentry with hentry | hentry
      · exact List.mem_append_left _ (h.known entry hentry)
      · refine List.mem_append_right _ ?_
        rw [← hfst]
        exact List.mem_map_of_mem hentry
    · by_cases hne : workflowId = wf.id
      · subst hne
        rw [hsteps found hfind]
        refine Origins.call h hids hcreated hcall.find hcall.perm ?_ horigin
        rw [World.tasksOf_of_append htasks fun row hrow => (created_pending hcreated row hrow).1,
          if_pos rfl]
      · refine hother workflowId hne (fun entry hentry => ?_) found hfind
        rw [horigin]
        exact List.mem_append_left _ hentry

theorem Inv.step (h : Inv s) {a : World.Act} (hstep : s.step a = some s') : Inv s' := by
  rcases step_cases hstep with ⟨hprogress, horigin⟩ | rfl | ⟨wf, rows, ids, now, -, hcall⟩ |
    ⟨wf, ids, hnone, hsorted, hcall⟩
  · exact h.progress hprogress horigin
  · exact h
  · exact h.call hcall
  · exact (h.withWorkflow hnone hsorted).call hcall

theorem inv_reaches (h : Reaches step empty s) : Inv s :=
  h.invariant (fun _ _ _ hinv hstep => hinv.step hstep) inv_empty

/-! ### Clear names are settled -/

theorem eq_of_countP_le_one {α : Type*} {l : List α} {p : α → Bool} (h : l.countP p ≤ 1) {a b : α}
    (ha : a ∈ l) (hpa : p a = true) (hb : b ∈ l) (hpb : p b = true) : a = b := by
  rw [List.countP_eq_length_filter] at h
  have ha' : a ∈ l.filter p := List.mem_filter.mpr ⟨ha, hpa⟩
  have hb' : b ∈ l.filter p := List.mem_filter.mpr ⟨hb, hpb⟩
  match hfilter : l.filter p with
  | [] => exact absurd (hfilter ▸ ha') List.not_mem_nil
  | [x] =>
    rw [hfilter, List.mem_singleton] at ha' hb'
    rw [ha', hb']
  | x :: y :: rest =>
    rw [hfilter] at h
    exact absurd h (by simp)

theorem ne_empty_of_filedUnder {row : TaskRow} {name : String}
    (h : row.filedUnder = some name) : name ≠ "" := by
  rintro rfl
  have hname := TaskRow.stepName_of_filedUnder h
  simp [TaskRow.filedUnder, hname] at h

/-- The step a task was launched for is unique. -/
theorem Inv.eq_of_origin (h : Inv s) {taskId : Uuid} {step step' : WorkflowStep}
    (hstep : (taskId, step) ∈ s.origin) (hstep' : (taskId, step') ∈ s.origin) : step = step' :=
  congrArg Prod.snd (List.inj_on_of_nodup_map h.ids hstep hstep' rfl)

/-- The tasks filed under a clear name are those of its step, and there is one at most. -/
theorem Inv.settled_of_clear (h : Inv s) (hfind : s.world.findWorkflow wf.id = some wf)
    {name : String} (hclear : ClearName wf.steps name) : s.Settled wf.id name := by
  rintro ⟨row, hrow, hfiled, hstate⟩
  have horigins := h.origins wf.id wf hfind
  have hname := TaskRow.stepName_of_filedUnder hfiled
  obtain ⟨step, hstep, hentry, filed, hfiledName, htask⟩ := horigins.launched row hrow
  obtain rfl : name = filed := Option.mem_unique hname hfiledName
  obtain ⟨hplain, hstepName⟩ := hclear.eq_of_taskName hstep htask
  refine ⟨⟨row, hrow, _, hentry, rfl, hstepName⟩, fun other hother => ?_⟩
  rintro ⟨⟨taskId, step''⟩, hentry'', rfl, hname''⟩
  obtain ⟨step', hstep', hentry', filed', hfiledName', htask'⟩ := horigins.launched other hother
  obtain rfl := h.eq_of_origin hentry' hentry''
  -- the other task's step bears the name too, so it is the same step
  obtain rfl : step = step' := eq_of_countP_le_one hclear.once hstep (by simpa using hstepName)
    hstep' (by simpa using hname'')
  rw [(WorkflowStep.taskName_of_plain hplain).mp htask', hstepName] at hfiledName'
  obtain rfl : row = other := eq_of_countP_le_one
    (horigins.once name (ne_empty_of_filedUnder hfiled) hclear) hrow (by simpa using hname) hother
    (by simpa using hfiledName')
  exact hstate

/-! ### What is created waits for what is settled -/

section Call

variable {created : List TaskRow} (hinv : Inv s)
  (hids : s.world.Draws ids (s.world.planOf wf rows).length)
  (hcreated : List.Forall₂ (CreatedFor wf.id) ((s.world.planOf wf rows).zip ids) created)
  (horigin : s'.origin = s.origin ++ assign (s.world.planOf wf rows) created)

include hids hcreated horigin in
/-- The call logs nothing about tasks that exist. -/
theorem launchedFor_iff_of_old {row : TaskRow} (hrow : row ∈ s.world.stores.db.tasks)
    {name : String} : s'.LaunchedFor row name ↔ s.LaunchedFor row name := by
  constructor
  · rintro ⟨entry, hentry, hid, hname⟩
    rw [horigin] at hentry
    rcases List.mem_append.mp hentry with hentry | hentry
    · exact ⟨entry, hentry, hid, hname⟩
    · obtain ⟨new, hnew, launch, -, -, rfl⟩ := exists_launch_of_assign hids hcreated hentry
      refine absurd ?_ (id_notMem_of_created hids hcreated hnew)
      rw [show new.id = row.id from hid]
      exact List.mem_map_of_mem hrow
  · rintro ⟨entry, hentry, hid, hname⟩
    exact ⟨entry, horigin ▸ List.mem_append_left _ hentry, hid, hname⟩

include hinv hids hcreated horigin in
/-- The log entry of a task that the call has created comes from its plan. -/
theorem exists_launch_of_new {row : TaskRow} (hrow : row ∈ created) {entry : Uuid × WorkflowStep}
    (hentry : entry ∈ s'.origin) (hid : entry.1 = row.id) :
    ∃ launch, some launch ∈ s.world.planOf wf rows ∧ entry.2 = launch.step := by
  rw [horigin] at hentry
  rcases List.mem_append.mp hentry with hentry | hentry
  · exact absurd (hid ▸ hinv.known entry hentry) (id_notMem_of_created hids hcreated hrow)
  · obtain ⟨new, -, launch, hlaunch, -, rfl⟩ := exists_launch_of_assign hids hcreated hentry
    exact ⟨launch, hlaunch, rfl⟩

include hinv hids hcreated horigin in
/-- A call that plans no step of the name changes nothing about them. -/
theorem finished_iff_of_call (htasks : s'.world.tasksOf wf.id = s.world.tasksOf wf.id ++ created)
    {name : String}
    (hother : ∀ launch, some launch ∈ s.world.planOf wf rows → launch.step.name ≠ name) :
    s'.Finished wf.id name ↔ s.Finished wf.id name := by
  have hold : ∀ row ∈ s.world.tasksOf wf.id, (s'.LaunchedFor row name ↔ s.LaunchedFor row name) :=
    fun row hrow => launchedFor_iff_of_old hids hcreated horigin (Db.mem_tasksOf.mp hrow).1
  have hnew : ∀ row ∈ created, ¬ s'.LaunchedFor row name := by
    rintro row hrow ⟨entry, hentry, hid, hname⟩
    obtain ⟨launch, hlaunch, hstep⟩ :=
      exists_launch_of_new hinv hids hcreated horigin hrow hentry hid
    exact hother launch hlaunch (hstep ▸ hname)
  have hmem : ∀ row, row ∈ s'.world.tasksOf wf.id ∧ s'.LaunchedFor row name ↔
      row ∈ s.world.tasksOf wf.id ∧ s.LaunchedFor row name := by
    intro row
    rw [htasks, List.mem_append]
    constructor
    · rintro ⟨hrow | hrow, hfor⟩
      · exact ⟨hrow, (hold row hrow).mp hfor⟩
      · exact absurd hfor (hnew row hrow)
    · exact fun ⟨hrow, hfor⟩ => ⟨Or.inl hrow, (hold row hrow).mpr hfor⟩
  refine and_congr (exists_congr hmem) ?_
  simp only [← and_imp, hmem]

end Call

/-- A dependency of a planned step is completed: a task filed under it has succeeded, and no step
of that name is planned. -/
theorem completed_of_planned {w : World} (hperm : rows.Perm (w.tasksOf wf.id)) {launch : Launch}
    (hlaunch : some launch ∈ w.planOf wf rows) {dep : String}
    (hdep : dep ∈ launch.step.dependsOn) :
    (∃ row ∈ w.tasksOf wf.id, row.filedUnder = some dep ∧ row.state = .succeeded) ∧
      ∀ other, some other ∈ w.planOf wf rows → other.step.name ≠ dep := by
  obtain ⟨-, -, -, hready⟩ := exists_ready_of_planned hlaunch
  have hcompleted := (mem_getReadySteps.mp hready).2.2 dep hdep
  obtain ⟨row, hrow, hfiled, hstate⟩ :=
    Collected.exists_of_states (Collected.mem_namesIn.mp hcompleted).2
  refine ⟨⟨row, hperm.mem_iff.mp hrow, hfiled, hstate⟩, ?_⟩
  rintro other hother rfl
  obtain ⟨-, -, -, hready'⟩ := exists_ready_of_planned hother
  exact (mem_getReadySteps.mp hready').2.1 hcompleted

theorem Call.dependenciesFinished (h : Call s s' wf rows ids) (hinv : Inv s)
    (hsettled : s.DependenciesSettled wf) : DependenciesFinished s s' := by
  rcases h.cases with ⟨htasks, -⟩ | ⟨created, htasks, horigin, hids, hcreated⟩
  · intro workflowId row hrow hnew
    have hold := (Db.mem_tasksOf.mp hrow).1
    rw [htasks] at hold
    exact absurd (List.mem_map_of_mem hold) hnew
  · have happend : ∀ workflowId, s'.world.tasksOf workflowId =
        s.world.tasksOf workflowId ++ if workflowId = wf.id then created else [] :=
      World.tasksOf_of_append htasks fun row hrow => (created_pending hcreated row hrow).1
    intro workflowId row hrow hnew step hentry dep hdep
    rw [happend] at hrow
    rcases List.mem_append.mp hrow with hold | hmem
    · exact absurd (List.mem_map_of_mem (Db.mem_tasksOf.mp hold).1) hnew
    · split_ifs at hmem with heq
      swap
      · exact absurd hmem List.not_mem_nil
      subst heq
      obtain ⟨launch, hlaunch, rfl⟩ :=
        exists_launch_of_new hinv hids hcreated horigin hmem hentry rfl
      obtain ⟨hcompleted, hother⟩ := completed_of_planned h.perm hlaunch hdep
      obtain ⟨hstep, -, hfiled, -⟩ := exists_ready_of_planned hlaunch
      have hfinished := hsettled launch.step hstep
        (fun old hold => hfiled old (h.perm.mem_iff.mpr hold)) dep hdep hcompleted
      exact (finished_iff_of_call hinv hids hcreated horigin
        ((happend wf.id).trans (by rw [if_pos rfl])) hother).mpr hfinished

/-! ### What is unsettled need not be waited for -/

/-- When the last tasks returned are succeeded ones, their names are completed. -/
theorem states_of_last_succeeded {db : Db} {front back : List TaskRow} {name : String}
    (hback : ∀ row ∈ back, row.state = .succeeded)
    (hfiled : ∃ row ∈ back, row.filedUnder = some name) :
    (Collected.ofTasks db (front ++ back)).states name = some .succeeded := by
  induction back using List.reverseRecOn with
  | nil =>
    obtain ⟨row, hrow, -⟩ := hfiled
    exact absurd hrow List.not_mem_nil
  | append_singleton back last ih =>
    rw [← List.append_assoc, Collected.ofTasks_append_singleton, Collected.add]
    have hlast := hback last (by simp)
    have hbefore : last.filedUnder ≠ some name →
        (Collected.ofTasks db (front ++ back)).states name = some .succeeded := by
      intro hne
      refine ih (fun row hrow => hback row (List.mem_append_left _ hrow)) ?_
      obtain ⟨row, hrow, hname⟩ := hfiled
      rcases List.mem_append.mp hrow with hrow | hrow
      · exact ⟨row, hrow, hname⟩
      · rw [List.mem_singleton.mp hrow] at hname
        exact absurd hname hne
    cases hcase : last.filedUnder with
    | none => exact hbefore (by simp [hcase])
    | some filed =>
      by_cases heq : name = filed
      · subst heq
        simp [hlast]
      · simp only [Function.update_of_ne heq]
        exact hbefore (by simp [hcase, Ne.symm heq])

/-- The tasks of a workflow in an order in which those that have succeeded come last. -/
def succeededLast (tasks : List TaskRow) : List TaskRow :=
  tasks.filter (fun row => !decide (row.state = .succeeded)) ++
    tasks.filter fun row => row.state = .succeeded

theorem succeededLast_perm (tasks : List TaskRow) : (succeededLast tasks).Perm tasks :=
  List.perm_append_comm.trans (List.filter_append_perm _ tasks)

theorem mem_completed_succeededLast {db : Db} {tasks : List TaskRow} {name : String}
    (h : ∃ row ∈ tasks, row.filedUnder = some name ∧ row.state = .succeeded) :
    name ∈ (Collected.ofTasks db (succeededLast tasks)).namesIn (succeededLast tasks)
      .succeeded := by
  obtain ⟨row, hrow, hfiled, hstate⟩ := h
  refine Collected.mem_namesIn.mpr
    ⟨⟨row, (succeededLast_perm tasks).mem_iff.mpr hrow, hfiled⟩, ?_⟩
  refine states_of_last_succeeded (fun other hother => ?_) ⟨row, ?_, hfiled⟩
  · simpa using (List.mem_filter.mp hother).2
  · exact List.mem_filter.mpr ⟨hrow, by simpa using hstate⟩

/-- A plan over regular steps has one launch for each step at most. -/
theorem length_planOf_le {w : World} (hplain : ∀ step ∈ wf.steps, step.fanOutField = none) :
    (w.planOf wf rows).length ≤ wf.steps.length := by
  set c := Collected.ofTasks w.stores.db rows
  set chosen := (getReadySteps wf.steps (c.namesIn rows .succeeded)).filter
    fun step => c.states step.name = none
  have hsub : chosen.Sublist wf.steps := List.filter_sublist.trans List.filter_sublist
  have hplan : w.planOf wf rows =
      chosen.map fun step => some ⟨step, step.name, step.payloadOf⟩ := by
    rw [List.map_eq_flatMap]
    refine List.flatMap_congr fun step hstep => ?_
    simp [WorkflowStep.expand, hplain step (hsub.subset hstep)]
  rw [hplan, List.length_map]
  exact hsub.length_le

theorem planned_of_plain {w : World}
    (hplain : ∀ step ∈ wf.steps, step.fanOutField = none ∧ RetryOk step.retry) :
    ∀ entry ∈ w.planOf wf rows, ∃ launch, entry = some launch ∧ RetryOk launch.step.retry := by
  intro entry hentry
  obtain ⟨step, hready, -, ⟨hraised, -⟩ | ⟨launches, hexpand, launch, hmem, rfl⟩⟩ :=
    Collected.mem_plan.mp hentry
  · have hstep := hplain step (mem_getReadySteps.mp hready).1
    exact absurd hraised (by simp [WorkflowStep.expand, hstep.1])
  · refine ⟨launch, rfl, ?_⟩
    rw [((WorkflowStep.expand_names hexpand).1 launch hmem).1]
    exact (hplain step (mem_getReadySteps.mp hready).1).2

/-- A call that finds no dead step, some step that is not completed, and nothing in its plan that
raises creates the tasks. -/
theorem exists_step_of_planned (hfind : s.world.findWorkflow wf.id = some wf)
    (hrunning : wf.state = .running) (hperm : rows.Perm (s.world.tasksOf wf.id))
    (hdead : (Collected.ofTasks s.world.stores.db rows).namesIn rows .dead = [])
    (hleft : ¬ ∀ step ∈ wf.steps,
      step.name ∈ (Collected.ofTasks s.world.stores.db rows).namesIn rows .succeeded)
    (hids : s.world.Draws ids (s.world.planOf wf rows).length)
    (hok : ∀ entry ∈ s.world.planOf wf rows,
      ∃ launch, entry = some launch ∧ RetryOk launch.step.retry) (now : ℚ) :
    ∃ s' created, s.step (.advance wf.id rows ids now) = some s' ∧
      s'.world.stores.db.tasks = s.world.stores.db.tasks ++ created ∧
      List.Forall₂ (CreatedFor wf.id) ((s.world.planOf wf rows).zip ids) created := by
  obtain ⟨stores, hdone⟩ := hids.launchAll_ok wf.id now hok
  obtain ⟨created, hdb, -, hcreated, -⟩ := launchAll_done hdone
  have hplan : (Collected.ofTasks s.world.stores.db rows).plan wf.steps
      ((Collected.ofTasks s.world.stores.db rows).namesIn rows .succeeded) =
      s.world.planOf wf rows := rfl
  have hadvance : s.world.step (.advance wf.id rows ids now) =
      some { s.world with stores := stores } := by
    simp only [World.step, World.advance, hfind, hrunning, ne_eq, not_true_eq_false, if_false,
      hperm, if_true, World.advanceRunning, hdead, hleft, hplan, hids, hdone]
  refine ⟨_, created, by rw [Traced.step, hadvance, Option.map_some], ?_, hcreated⟩
  rw [hdb]

/-- A step that looks ready but depends on a name whose steps have not finished is launched when
the tasks that have succeeded are returned last. -/
theorem exists_early_call (hinv : Inv s) (hfind : s.world.findWorkflow wf.id = some wf)
    (hrunning : wf.state = .running)
    (hplain : ∀ step ∈ wf.steps, step.fanOutField = none ∧ RetryOk step.retry)
    (hdead : ∀ row ∈ s.world.tasksOf wf.id, row.state ≠ .dead) {step : WorkflowStep}
    (hstep : step ∈ wf.steps)
    (hnone : ∀ row ∈ s.world.tasksOf wf.id, row.filedUnder ≠ some step.name)
    (hdeps : ∀ dep ∈ step.dependsOn, ∃ row ∈ s.world.tasksOf wf.id,
      row.filedUnder = some dep ∧ row.state = .succeeded)
    {dep : String} (hdep : dep ∈ step.dependsOn) (hnot : ¬ s.Finished wf.id dep)
    (hids : s.world.Draws ids wf.steps.length) (now : ℚ) :
    ∃ rows s', s.step (.advance wf.id rows ids now) = some s' ∧ ¬ DependenciesFinished s s' := by
  set rows := succeededLast (s.world.tasksOf wf.id) with hrows
  set c := Collected.ofTasks s.world.stores.db rows with hc
  have hperm : rows.Perm (s.world.tasksOf wf.id) := succeededLast_perm _
  have hstates : c.states step.name = none :=
    Collected.states_eq_none_iff.mpr fun row hrow => hnone row (hperm.mem_iff.mp hrow)
  have hnoDead : c.namesIn rows .dead = [] := by
    rw [List.eq_nil_iff_forall_not_mem]
    intro name hname
    obtain ⟨row, hrow, -, hstate⟩ :=
      Collected.exists_of_states (Collected.mem_namesIn.mp hname).2
    exact hdead row (hperm.mem_iff.mp hrow) hstate
  have hnew : step.name ∉ c.namesIn rows .succeeded := by
    intro hmem
    rw [(Collected.mem_namesIn.mp hmem).2] at hstates
    exact absurd hstates (by simp)
  -- with the succeeded tasks last, each dependency is filed as succeeded
  have hready : step ∈ getReadySteps wf.steps (c.namesIn rows .succeeded) :=
    mem_getReadySteps.mpr ⟨hstep, hnew, fun d hd => mem_completed_succeededLast (hdeps d hd)⟩
  have hlaunch : some ⟨step, step.name, step.payloadOf⟩ ∈ s.world.planOf wf rows :=
    Collected.mem_plan.mpr ⟨step, hready, hstates, Or.inr ⟨[⟨step, step.name, step.payloadOf⟩],
      by simp [WorkflowStep.expand, (hplain step hstep).1], _, List.mem_singleton_self _, rfl⟩⟩
  have hdraws : s.world.Draws ids (s.world.planOf wf rows).length :=
    ⟨(length_planOf_le fun other hother => (hplain other hother).1).trans hids.1, hids.2⟩
  obtain ⟨s', created, hs', htasks, hcreated⟩ := exists_step_of_planned hfind hrunning hperm hnoDead
    (fun hall => hnew (hall step hstep)) hdraws (planned_of_plain hplain) now
  refine ⟨rows, s', hs', fun hfinished => hnot ?_⟩
  -- the call creates a task for the step, and finishes nothing by itself
  have horigin : s'.origin = s.origin ++ assign (s.world.planOf wf rows) created := by
    rw [(call_of_advance hfind hrunning hs').origin, htasks, List.drop_left]
  have hafter : s'.world.tasksOf wf.id = s.world.tasksOf wf.id ++ created := by
    rw [World.tasksOf_of_append htasks fun row hrow => (created_pending hcreated row hrow).1,
      if_pos rfl]
  obtain ⟨row, hrow, hentry⟩ : ∃ row ∈ created, (row.id, step) ∈ s'.origin := by
    obtain ⟨row, hrow, hentry⟩ := exists_assign_of_planned hcreated hdraws.1 hlaunch
    exact ⟨row, hrow, horigin ▸ List.mem_append_right _ hentry⟩
  have hdone := hfinished wf.id row (hafter ▸ List.mem_append_right _ hrow)
    (id_notMem_of_created hdraws hcreated hrow) step hentry dep hdep
  exact (finished_iff_of_call hinv hdraws hcreated horigin hafter
    (completed_of_planned hperm hlaunch hdep).2).mp hdone

end Traced

open Traced in
/-- **Dependencies finish first.** In every state of every run, for every event: a call of `advance`
creates tasks only for steps whose dependencies have finished, provided the names on which the
steps without a task depend are settled; and events other than calls of `advance` always do. Names
that are borne by one step, and by no sibling, are settled in every state. From a state in which a
regular step looks ready and depends on a name that is not settled, some call creates its task too
early. -/
theorem dependencies_finished {s : Traced} (hrun : Reaches Traced.step .empty s) :
    (∀ a s', s.step a = some s' →
      (∀ workflowId rows ids now wf, a = .advance workflowId rows ids now →
        s.world.findWorkflow workflowId = some wf → s.DependenciesSettled wf) →
      DependenciesFinished s s') ∧
    (∀ wf ∈ s.world.workflows,
      (∀ step ∈ wf.steps, ∀ dep ∈ step.dependsOn, ClearName wf.steps dep) →
        s.DependenciesSettled wf) ∧
    ∀ wf ∈ s.world.workflows, wf.state = .running →
      (∀ step ∈ wf.steps, step.fanOutField = none ∧ RetryOk step.retry) →
      (∀ row ∈ s.world.tasksOf wf.id, row.state ≠ .dead) →
      ∀ step ∈ wf.steps, (∀ row ∈ s.world.tasksOf wf.id, row.filedUnder ≠ some step.name) →
        (∀ dep ∈ step.dependsOn, ∃ row ∈ s.world.tasksOf wf.id,
          row.filedUnder = some dep ∧ row.state = .succeeded) →
        (∃ dep ∈ step.dependsOn, ¬ s.Settled wf.id dep) →
        ∀ ids now, s.world.Draws ids wf.steps.length →
          ∃ rows s', s.step (.advance wf.id rows ids now) = some s' ∧
            ¬ DependenciesFinished s s' := by
  have hinv := inv_reaches hrun
  refine ⟨fun a s' hstep hsettled => ?_, fun wf hwf hclear => ?_, ?_⟩
  · have hold : (∀ row ∈ s'.world.stores.db.tasks, row.id ∈
        s.world.stores.db.tasks.map TaskRow.id) → DependenciesFinished s s' :=
      fun hids workflowId row hrow hnew => absurd (hids row (Db.mem_tasksOf.mp hrow).1) hnew
    rcases step_cases hstep with ⟨hprogress, -⟩ | rfl | ⟨wf, rows, ids, now, rfl, hcall⟩ |
      ⟨wf, ids, hnone, hsorted, hcall⟩
    · refine hold fun row hrow => ?_
      obtain ⟨-, taskId, state, attempt, found, -, -, htasks⟩ := hprogress
      rw [htasks] at hrow
      obtain ⟨old, hmem, rfl⟩ := List.mem_map.mp hrow
      simpa using List.mem_map_of_mem (f := TaskRow.id) hmem
    · exact hold fun row hrow => List.mem_map_of_mem hrow
    · exact hcall.dependenciesFinished hinv (hsettled wf.id rows ids now wf rfl hcall.find)
    · refine hcall.dependenciesFinished (hinv.withWorkflow hnone hsorted) ?_
      -- the workflow has just been created and has no task
      rintro step - - dep - ⟨row, hrow, -⟩
      have hnil : (s.withWorkflow wf).world.tasksOf wf.id = [] := hinv.world.tasksOf_eq_nil hnone
      exact absurd (hnil ▸ hrow) List.not_mem_nil
  · intro step hstep _ dep hdep
    exact hinv.settled_of_clear (hinv.world.findWorkflow_eq hwf) (hclear step hstep dep hdep)
  · rintro wf hwf hrunning hplain hdead step hstep hnone hdeps ⟨dep, hdep, hunsettled⟩ ids now hids
    refine exists_early_call hinv (hinv.world.findWorkflow_eq hwf) hrunning hplain hdead hstep hnone
      hdeps hdep (fun hfinished => hunsettled fun _ => hfinished) hids now

/-- A task of the first step. -/
def firstRow (taskId : Uuid) (state : TaskState) (attempt : ℕ) : TaskRow :=
  { Launch.row ⟨⟨"a", "f", none, [], none, .absent⟩, "a", .obj []⟩ ⟨1⟩ taskId 5 with
    state := state, attempt := attempt }

/-- The theorem at a chain of two steps: the second one is launched after the first has
succeeded. -/
theorem dependencies_finished_chain :
    ∃ s s', Reaches Traced.step .empty s ∧
      s.step (.advance ⟨1⟩ [firstRow ⟨2⟩ .succeeded 1] [⟨3⟩] 0) = some s' ∧
      (⟨3⟩, ⟨"b", "g", none, ["a"], none, .absent⟩) ∈ s'.origin ∧
      Traced.DependenciesFinished s s' := by
  let steps : List WorkflowStep :=
    [⟨"a", "f", none, [], none, .absent⟩, ⟨"b", "g", none, ["a"], none, .absent⟩]
  obtain ⟨s, hrun, hworkflows, hnext⟩ := exists_run_of_check Traced.step .empty
    [.submit ⟨1⟩ "w" steps ["a", "b"] [⟨2⟩] 0, .lease ⟨2⟩, .succeed ⟨2⟩ 1 none]
    (fun s => s.world.workflows = [⟨⟨1⟩, "w", steps, .running⟩] ∧
      (s.step (.advance ⟨1⟩ [firstRow ⟨2⟩ .succeeded 1] [⟨3⟩] 0)).any (fun s' =>
        decide ((⟨3⟩, ⟨"b", "g", none, ["a"], none, .absent⟩) ∈ s'.origin)) = true)
    (by decide +kernel)
  have hreaches : Reaches Traced.step .empty s := .of_run hrun
  obtain ⟨s', hs', hlogged⟩ := (Option.any_eq_true _ _).mp hnext
  refine ⟨s, s', hreaches, hs', of_decide_eq_true hlogged, ?_⟩
  obtain ⟨hcall, hclear, -⟩ := dependencies_finished hreaches
  refine hcall _ s' hs' fun workflowId rows ids now wf _ hfind => hclear wf ?_ ?_
  · exact (World.mem_of_findWorkflow hfind).1
  · have hwf := (World.mem_of_findWorkflow hfind).1
    rw [hworkflows, List.mem_singleton] at hwf
    subst hwf
    intro step hstep dep hdep
    obtain rfl : dep = "a" := by
      rcases List.mem_cons.mp hstep with rfl | hstep
      · exact absurd hdep List.not_mem_nil
      · rw [List.mem_singleton.mp hstep] at hdep
        exact List.mem_singleton.mp hdep
    refine ⟨by decide, fun other hother hfan => absurd ?_ hfan⟩
    revert other
    decide

/-- Two steps of one name, both without dependencies, and a step that depends on the name. One of
the two tasks has succeeded and is returned last; the third step is launched while the other one
has not begun. -/
theorem launched_before_dependency :
    ∃ s s', Reaches Traced.step .empty s ∧
      s.step (.advance ⟨1⟩ [firstRow ⟨2⟩ .pending 0, firstRow ⟨3⟩ .succeeded 1] [⟨4⟩] 0) = some s' ∧
      ¬ Traced.DependenciesFinished s s' := by
  let last : WorkflowStep := ⟨"b", "g", none, ["a"], none, .absent⟩
  obtain ⟨s, hrun, hnew, hnext⟩ := exists_run_of_check Traced.step .empty
    [.submit ⟨1⟩ "w" [⟨"a", "f", none, [], none, .absent⟩, ⟨"a", "f", none, [], none, .absent⟩,
      last] ["a", "b"] [⟨2⟩, ⟨3⟩] 0, .lease ⟨3⟩, .succeed ⟨3⟩ 1 none]
    (fun s => (⟨4⟩ : Uuid) ∉ s.world.stores.db.tasks.map TaskRow.id ∧
      (s.step (.advance ⟨1⟩ [firstRow ⟨2⟩ .pending 0, firstRow ⟨3⟩ .succeeded 1] [⟨4⟩] 0)).any
        (fun s' => decide ((∃ row ∈ s'.world.tasksOf ⟨1⟩, row.id = ⟨4⟩) ∧
          (⟨4⟩, last) ∈ s'.origin ∧ ¬ s'.Finished ⟨1⟩ "a")) = true)
    (by decide +kernel)
  obtain ⟨s', hs', hcheck⟩ := (Option.any_eq_true _ _).mp hnext
  obtain ⟨⟨row, hrow, hid⟩, hlogged, hunfinished⟩ := of_decide_eq_true hcheck
  refine ⟨s, s', .of_run hrun, hs', fun hfinished => hunfinished ?_⟩
  exact hfinished ⟨1⟩ row hrow (hid ▸ hnew) last (hid ▸ hlogged) "a" (List.mem_singleton_self _)

end Dtq
