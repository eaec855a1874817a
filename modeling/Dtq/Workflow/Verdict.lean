import Dtq.Workflow.Transactions

/-!
# What the calls decide is so

A call of `advance` decides on what it has read a while ago, statement by statement, while other
calls commit and workers go on. What it rests its decision on is which tasks have succeeded and
which are dead, and tasks that have ended stay as they are. So whatever is interleaved and wherever
calls end, a verdict is justified when it is written, a step is launched only after the steps it
depends on, and both stay so.

Nothing is assumed of the names in the workflow, and two calls may launch the same step or write
different verdicts; each of them is justified by itself.

## Main results

* `Calls.Justified.step` — one statement of one call, or one event, keeps this
* `Calls.verdicts_justified` — so it holds in every run
-/

set_option autoImplicit false

namespace Dtq

open Transition

@[simp] theorem Db.setState_taskName (taskId : Uuid) (state : TaskState) (attempt : Option ℕ)
    (row : TaskRow) : (Db.setState taskId state attempt row).taskName = row.taskName := by
  unfold Db.setState
  split <;> rfl

theorem TaskRow.ne_empty_of_filedUnder {row : TaskRow} {name : String}
    (h : row.filedUnder = some name) : name ≠ "" := by
  rintro rfl
  simp [TaskRow.filedUnder, TaskRow.stepName_of_filedUnder h] at h

namespace World

variable {w w' : World} {workflowId : Uuid}

/-- The tasks that have ended stay as they are. -/
def KeepsEnded (w w' : World) : Prop :=
  ∀ workflowId, ∀ row ∈ w.tasksOf workflowId, row.state = .succeeded ∨ row.state = .dead →
    row ∈ w'.tasksOf workflowId

theorem KeepsEnded.ofGrown (h : w.stores.db.tasks <+: w'.stores.db.tasks) : w.KeepsEnded w' := by
  intro workflowId row hrow _
  obtain ⟨hmem, hid⟩ := Db.mem_tasksOf.mp hrow
  exact Db.mem_tasksOf.mpr ⟨h.subset hmem, hid⟩

theorem KeepsEnded.of_progress (hids : (w.stores.db.tasks.map TaskRow.id).Nodup)
    (h : w.Progress w') : w.KeepsEnded w' :=
  fun _ _ hrow hended => h.mem_of_ended_of_nodup hids hrow hended

/-- Some task of the workflow is dead. -/
def HasDead (w : World) (workflowId : Uuid) : Prop :=
  ∃ row ∈ w.tasksOf workflowId, row.state = .dead

/-- All steps that the step depends on have succeeded. -/
def Supports (w : World) (workflowId : Uuid) (step : WorkflowStep) : Prop :=
  ∀ dep ∈ step.dependsOn, w.Succeeded workflowId dep

/-- What a workflow in this state says of its tasks. -/
def Bears (w : World) (workflowId : Uuid) (steps : List WorkflowStep) : WorkflowState → Prop
  | .running => True
  | .completed => ∀ step ∈ steps, step.name ≠ "" ∧ w.Succeeded workflowId step.name
  | .failed => w.HasDead workflowId

/-- The task is one of a step of the workflow, and that step was not launched too early. -/
def Grounds (w : World) (workflowId : Uuid) (steps : List WorkflowStep) (row : TaskRow) : Prop :=
  ∃ step ∈ steps, row.Of step ∧ row.taskName = step.task ∧ w.Supports workflowId step

section Mono

variable (hkeeps : w.KeepsEnded w')
include hkeeps

theorem Succeeded.mono {name : String} (h : w.Succeeded workflowId name) :
    w'.Succeeded workflowId name := by
  obtain ⟨row, hrow, hname, hstate⟩ := h
  exact ⟨row, hkeeps _ row hrow (Or.inl hstate), hname, hstate⟩

theorem HasDead.mono (h : w.HasDead workflowId) : w'.HasDead workflowId := by
  obtain ⟨row, hrow, hstate⟩ := h
  exact ⟨row, hkeeps _ row hrow (Or.inr hstate), hstate⟩

theorem Supports.mono {step : WorkflowStep} (h : w.Supports workflowId step) :
    w'.Supports workflowId step :=
  fun dep hdep => (h dep hdep).mono hkeeps

theorem Bears.mono {steps : List WorkflowStep} {state : WorkflowState}
    (h : w.Bears workflowId steps state) : w'.Bears workflowId steps state := by
  cases state with
  | running => trivial
  | completed => exact fun step hstep => ⟨(h step hstep).1, (h step hstep).2.mono hkeeps⟩
  | failed => exact HasDead.mono hkeeps h

theorem Grounds.mono {steps : List WorkflowStep} {row : TaskRow}
    (h : w.Grounds workflowId steps row) : w'.Grounds workflowId steps row := by
  obtain ⟨step, hstep, hof, htask, hsupports⟩ := h
  exact ⟨step, hstep, hof, htask, hsupports.mono hkeeps⟩

end Mono

end World

/-! ### What a call has to go by -/

/-- What a call has read is so, as far as it decides anything, and what it has decided is
justified. -/
def AdvancePc.Informed (w : World) (workflowId : Uuid) : AdvancePc → Prop
  | .getEffects _ rows left c =>
    left ⊆ rows ∧
      (∀ row ∈ rows, row.state = .succeeded ∨ row.state = .dead → row ∈ w.tasksOf workflowId) ∧
      ∀ name state, c.states name = some state →
        ∃ row ∈ rows, row.filedUnder = some name ∧ row.state = state
  | .setState wf state => state ≠ .running ∧ w.Bears workflowId wf.steps state
  | .launch wf plan | .publish wf _ plan =>
    ∀ launch, some launch ∈ plan → launch.step ∈ wf.steps ∧ launch.step.TaskName launch.stepName ∧
      w.Supports workflowId launch.step
  | .getWorkflow | .getTasks _ | .ended _ => True

namespace AdvancePc

variable {w w' : World} {workflowId : Uuid}

theorem Informed.mono (hkeeps : w.KeepsEnded w') {pc : AdvancePc} (h : pc.Informed w workflowId) :
    pc.Informed w' workflowId := by
  cases pc with
  | getEffects wf rows left c =>
    obtain ⟨hleft, hended, hfiled⟩ := h
    exact ⟨hleft, fun row hrow hend => hkeeps _ row (hended row hrow hend) hend, hfiled⟩
  | setState wf state => exact ⟨h.1, h.2.mono hkeeps⟩
  | launch wf plan | publish wf envelope plan =>
    intro launch hlaunch
    obtain ⟨hstep, hname, hsupports⟩ := h launch hlaunch
    exact ⟨hstep, hname, hsupports.mono hkeeps⟩
  | getWorkflow | getTasks | ended => trivial

section Reading

variable {wf : WorkflowRow} {rows left : List TaskRow} {c : Collected}
  (h : (AdvancePc.getEffects wf rows left c).Informed w workflowId)
include h

/-- A name filed under an end that a task can come to is that of such a task. -/
theorem Informed.exists_row {name : String} {state : TaskState}
    (hstate : state = .succeeded ∨ state = .dead) (hname : name ∈ c.namesIn rows state) :
    name ≠ "" ∧ ∃ row ∈ w.tasksOf workflowId, row.stepName = some name ∧ row.state = state := by
  obtain ⟨-, hfiled⟩ := Collected.mem_namesIn.mp hname
  obtain ⟨row, hrow, hunder, rfl⟩ := h.2.2 name state hfiled
  exact ⟨TaskRow.ne_empty_of_filedUnder hunder, row, h.2.1 row hrow hstate,
    TaskRow.stepName_of_filedUnder hunder, rfl⟩

/-- What is decided on what has been read is justified. -/
theorem Informed.decision : (AdvanceCall.decision wf rows c).Informed w workflowId := by
  have hsucceeded : ∀ name ∈ c.namesIn rows .succeeded,
      name ≠ "" ∧ w.Succeeded workflowId name := fun name hname => h.exists_row (Or.inl rfl) hname
  -- the three branches of `advance` after the loop over the tasks
  unfold AdvanceCall.decision
  split_ifs with hdead hall
  · obtain ⟨name, hname⟩ := List.exists_mem_of_ne_nil _ hdead
    obtain ⟨-, row, hrow, -, hstate⟩ := h.exists_row (Or.inr rfl) hname
    exact ⟨by simp, row, hrow, hstate⟩
  · exact ⟨by simp, fun step hstep => hsucceeded step.name (hall step hstep)⟩
  · intro launch hlaunch
    obtain ⟨step, hready, -, ⟨-, hnone⟩ | ⟨launches, hexpand, other, hother, heq⟩⟩ :=
      Collected.mem_plan.mp hlaunch
    · exact absurd hnone (by simp)
    · obtain rfl := Option.some.inj heq
      obtain ⟨rfl, hname⟩ := (WorkflowStep.expand_names hexpand).1 launch hother
      obtain ⟨hstep, -, hdeps⟩ := mem_getReadySteps.mp hready
      exact ⟨hstep, hname, fun dep hdep => (hsucceeded dep (hdeps dep hdep)).2⟩

end Reading

/-- Collecting one more of the rows. -/
theorem Informed.add {wf : WorkflowRow} {rows left : List TaskRow} {row : TaskRow} {c : Collected}
    (h : (AdvancePc.getEffects wf rows (row :: left) c).Informed w workflowId) (db : Db) :
    (AdvancePc.getEffects wf rows left (c.add db row)).Informed w workflowId := by
  obtain ⟨hleft, hended, hstates⟩ := h
  refine ⟨fun _ hmem => hleft (List.mem_cons_of_mem _ hmem), hended, fun name state hstate => ?_⟩
  unfold Collected.add at hstate
  cases hunder : row.filedUnder with
  | none =>
    rw [hunder] at hstate
    exact hstates name state hstate
  | some filed =>
    simp only [hunder] at hstate
    -- a later task of the same name takes the place of the one before
    by_cases hname : name = filed
    · subst hname
      rw [Function.update_self] at hstate
      exact ⟨row, hleft List.mem_cons_self, hunder, Option.some.inj hstate⟩
    · rw [Function.update_of_ne hname] at hstate
      exact hstates name state hstate

end AdvancePc

/-! ### Every interleaving -/

namespace Calls

variable {s s' : Calls} {i : ℕ} {call call' : AdvanceCall} {w' : World}

/-- The rows that the calls have inserted have different ids. -/
structure Distinct (s : Calls) : Prop where
  rows : s.rowIds.Nodup
  inserted : ∀ call ∈ s.calls, (call.inserted.map TaskRow.id).Nodup

/-- What is in the tables, and what the calls have to go by, is justified. -/
structure Justified (s : Calls) : Prop where
  calls : ∀ call ∈ s.calls, call.pc.Informed s.world call.workflowId
  inserted : ∀ call ∈ s.calls, ∀ row ∈ call.inserted,
    ∃ wf, s.world.findWorkflow call.workflowId = some wf ∧
      s.world.Grounds call.workflowId wf.steps row
  rows : ∀ row ∈ s.world.stores.db.tasks, ∃ workflowId wf, row.workflowId = some workflowId ∧
    s.world.findWorkflow workflowId = some wf ∧ s.world.Grounds workflowId wf.steps row
  verdicts : ∀ workflowId wf, s.world.findWorkflow workflowId = some wf →
    s.world.Bears workflowId wf.steps wf.state

theorem distinct_empty : Distinct .empty :=
  ⟨List.nodup_nil, fun _ hcall => absurd hcall List.not_mem_nil⟩

theorem justified_empty : Justified .empty where
  calls := fun _ hcall => absurd hcall List.not_mem_nil
  inserted := fun _ hcall => absurd hcall List.not_mem_nil
  rows := fun _ hrow => absurd hrow List.not_mem_nil
  verdicts := fun _ _ hfind => absurd hfind (by simp [empty, World.findWorkflow, World.empty])

section Distinct

theorem Distinct.set (h : s.Distinct) (hrows : rowIds ⟨w', s.calls.set i call'⟩ = s.rowIds)
    (hnodup : (call'.inserted.map TaskRow.id).Nodup) : Distinct ⟨w', s.calls.set i call'⟩ :=
  ⟨hrows ▸ h.rows, Indexed.forall_mem_set h.inserted hnodup⟩

/-- A row is inserted under an id that no row has, and is committed with the others of its call. -/
theorem Distinct.answer (h : s.Distinct) (hinv : s.Inv) (hcall : s.calls[i]? = some call)
    (hmove : call.Move s.world s.waiting w' call') : Distinct ⟨w', s.calls.set i call'⟩ := by
  have hmem := List.mem_of_getElem? hcall
  have hnodup := h.inserted call hmem
  cases hmove with
  | inserted wf launch rest taskId n now hpc hn hinsert hwaiting =>
    refine h.set rfl ?_
    rw [List.map_append, List.map_singleton, List.nodup_append]
    refine ⟨hnodup, List.nodup_singleton _, ?_⟩
    intro id hid new hnew heq
    obtain ⟨row, hrow, rfl⟩ := List.mem_map.mp hid
    -- the primary key waits for uncommitted rows, too
    have hwait : row ∈ s.waiting := List.mem_flatMap.mpr ⟨call, hmem, hrow⟩
    exact hwaiting row hwait (heq.trans (List.mem_singleton.mp hnew))
  | committed wf hpc =>
    refine ⟨?_, Indexed.forall_mem_set h.inserted hnodup⟩
    have hseparate := hinv.uncommitted call hmem (by simp [hpc])
    simp only [rowIds, List.map_append]
    refine List.nodup_append.mpr ⟨h.rows, hnodup, ?_⟩
    intro id hid new hnew heq
    obtain ⟨row, hrow, rfl⟩ := List.mem_map.mp hnew
    exact hseparate row hrow (heq ▸ hid)
  | found | read | collected | decided | finished | published | lost | aborted =>
    exact h.set rfl hnodup

theorem Distinct.step {a : Act} (h : s.Distinct) (hinv : s.Inv) (hstep : s.step a = some s') :
    s'.Distinct := by
  cases moves_of_step hstep with
  | refused | created | delivered | adopted => exact ⟨h.rows, h.inserted⟩
  | began => exact ⟨h.rows, Indexed.forall_mem_append_singleton h.inserted List.nodup_nil⟩
  | answered hcall hanswer => exact h.answer hinv hcall (AdvanceCall.move_of_answer hanswer)
  | progressed _ hprogress => exact ⟨rowIds_of_progress hprogress ▸ h.rows, h.inserted⟩

end Distinct

/-- Tasks that have ended stay as they are, whatever happens. -/
theorem Moves.keepsEnded {a : Act} (h : s.Moves a s') (hdistinct : s.Distinct) :
    s.world.KeepsEnded s'.world := by
  cases h with
  | refused | created | began | delivered | adopted =>
    exact .ofGrown (List.prefix_refl _)
  | answered hcall hanswer =>
    cases AdvanceCall.move_of_answer hanswer with
    | committed => exact .ofGrown (List.prefix_append _ _)
    | found | read | collected | decided | finished | inserted | published | lost | aborted =>
      exact .ofGrown (List.prefix_refl _)
  -- with distinct ids, progress on one task is not progress on another that has ended
  | progressed _ hprogress => exact .of_progress hdistinct.rows hprogress

namespace Justified

theorem grounds_mono (hkeeps : s.world.KeepsEnded w') (hsteps : s.world.KeepsSteps w')
    {workflowId : Uuid} {row : TaskRow}
    (h : ∃ wf, s.world.findWorkflow workflowId = some wf ∧
      s.world.Grounds workflowId wf.steps row) :
    ∃ wf, w'.findWorkflow workflowId = some wf ∧ w'.Grounds workflowId wf.steps row := by
  obtain ⟨wf, hfind, hgrounds⟩ := h
  obtain ⟨wf', hfind', hsame⟩ := hsteps _ _ hfind
  exact ⟨wf', hfind', hsame ▸ hgrounds.mono hkeeps⟩

/-- Steps after which there are no new rows, verdicts or workflows. -/
theorem frame (h : s.Justified) (hkeeps : s.world.KeepsEnded w')
    (hworkflows : w'.workflows = s.world.workflows)
    (hcalls : ∀ call ∈ s'.calls, call.pc.Informed w' call.workflowId)
    (hinserted : ∀ call ∈ s'.calls, ∀ row ∈ call.inserted, ∃ wf,
      w'.findWorkflow call.workflowId = some wf ∧ w'.Grounds call.workflowId wf.steps row)
    (hrows : ∀ row ∈ w'.stores.db.tasks, ∃ old ∈ s.world.stores.db.tasks,
      old.workflowId = row.workflowId ∧ old.stepName = row.stepName ∧ old.taskName = row.taskName)
    (hworld : s'.world = w') : s'.Justified where
  calls := hworld ▸ hcalls
  inserted := hworld ▸ hinserted
  rows := by
    subst hworld
    intro row hrow
    obtain ⟨old, hold, hid, hname, htask⟩ := hrows row hrow
    obtain ⟨workflowId, wf, howner, hfind, step, hstep, hof, htaskName, hsupports⟩ :=
      h.rows old hold
    refine ⟨workflowId, wf, hid ▸ howner, ?_, step, hstep, ?_, htask ▸ htaskName,
      hsupports.mono hkeeps⟩
    · rw [World.findWorkflow, hworkflows]
      exact hfind
    · obtain ⟨name, hstepName, htaskOf⟩ := hof
      exact ⟨name, hname ▸ hstepName, htaskOf⟩
  verdicts := by
    subst hworld
    intro workflowId wf hfind
    rw [World.findWorkflow, hworkflows] at hfind
    exact (h.verdicts workflowId wf hfind).mono hkeeps

/-- A step of one call that leaves the tables alone. -/
theorem set (h : s.Justified) (hcall : s.calls[i]? = some call)
    (hdb : w'.stores.db = s.world.stores.db) (hworkflows : w'.workflows = s.world.workflows)
    (hid : call'.workflowId = call.workflowId)
    (hpc : call'.pc.Informed s.world call.workflowId)
    (hinserted : ∀ row ∈ call'.inserted, row ∈ call.inserted ∨
      ∃ wf, s.world.findWorkflow call.workflowId = some wf ∧
        s.world.Grounds call.workflowId wf.steps row) :
    Justified ⟨w', s.calls.set i call'⟩ := by
  have hkeeps : s.world.KeepsEnded w' := .ofGrown (hdb ▸ List.prefix_refl _)
  have hsteps : s.world.KeepsSteps w' := .of_workflows_eq hworkflows
  refine h.frame hkeeps hworkflows ?_ ?_ (fun row hrow => ⟨row, hdb ▸ hrow, rfl, rfl, rfl⟩) rfl
  · exact Indexed.forall_mem_set (fun other hother => (h.calls other hother).mono hkeeps)
      (hid ▸ hpc.mono hkeeps)
  · refine Indexed.forall_mem_set
      (fun other hother row hrow => grounds_mono hkeeps hsteps (h.inserted other hother row hrow))
      fun row hrow => ?_
    rw [hid]
    rcases hinserted row hrow with hold | hnew
    · exact grounds_mono hkeeps hsteps (h.inserted call (List.mem_of_getElem? hcall) row hold)
    · exact grounds_mono hkeeps hsteps hnew

/-- The rows of a call are committed. -/
theorem commit (h : s.Justified) (hcall : s.calls[i]? = some call) (hsound : call.Sound s.world) :
    Justified ⟨{ s.world with stores := { s.world.stores with
        db := { s.world.stores.db with tasks := s.world.stores.db.tasks ++ call.inserted } } },
      s.calls.set i (call.goto (.ended true))⟩ := by
  have hmem := List.mem_of_getElem? hcall
  have hkeeps : s.world.KeepsEnded { s.world with stores := { s.world.stores with
      db := { s.world.stores.db with tasks := s.world.stores.db.tasks ++ call.inserted } } } :=
    .ofGrown (List.prefix_append _ _)
  have hgrounds := fun other hother row hrow =>
    grounds_mono hkeeps (.of_workflows_eq rfl) (h.inserted other hother row hrow)
  refine ⟨?_, Indexed.forall_mem_set hgrounds (hgrounds call hmem), ?_, fun workflowId wf hfind =>
    (h.verdicts workflowId wf hfind).mono hkeeps⟩
  · exact Indexed.forall_mem_set (fun other hother => (h.calls other hother).mono hkeeps) trivial
  · intro row hrow
    rcases List.mem_append.mp hrow with hold | hnew
    · obtain ⟨workflowId, wf, howner, hfind, hground⟩ := h.rows row hold
      exact ⟨workflowId, wf, howner, hfind, hground.mono hkeeps⟩
    · obtain ⟨wf, hfind, hground⟩ := hgrounds call hmem row hnew
      exact ⟨call.workflowId, wf, hsound.owned row hnew, hfind, hground⟩

/-- A verdict is written. -/
theorem finish (h : s.Justified) (hcall : s.calls[i]? = some call) (hsound : call.Sound s.world)
    {wf : WorkflowRow} {state : WorkflowState} (hpc : call.pc = .setState wf state) :
    Justified ⟨s.world.setWorkflowState wf.id state, s.calls.set i (call.goto (.ended true))⟩ := by
  have hmem := List.mem_of_getElem? hcall
  have hkeeps : s.world.KeepsEnded (s.world.setWorkflowState wf.id state) :=
    .ofGrown (List.prefix_refl _)
  have hsteps := s.world.keepsSteps_setWorkflowState wf.id state
  have hgrounds := fun other hother row hrow =>
    grounds_mono hkeeps hsteps (h.inserted other hother row hrow)
  obtain ⟨hid, found, hfound, hsame⟩ := hsound.workflow wf (by rw [hpc]; rfl)
  refine ⟨?_, Indexed.forall_mem_set hgrounds (hgrounds call hmem), ?_, ?_⟩
  · exact Indexed.forall_mem_set (fun other hother => (h.calls other hother).mono hkeeps) trivial
  · intro row hrow
    obtain ⟨workflowId, old, howner, hfind, hground⟩ := h.rows row hrow
    obtain ⟨old', hfind', hground'⟩ := grounds_mono hkeeps hsteps ⟨old, hfind, hground⟩
    exact ⟨workflowId, old', howner, hfind', hground'⟩
  · intro workflowId wf' hfind
    rw [World.findWorkflow_setWorkflowState, Option.map_eq_some_iff] at hfind
    obtain ⟨old, hold, rfl⟩ := hfind
    split_ifs with hsameId
    · -- the workflow of the call: what it says is what the call had to go by
      have hinformed := h.calls call hmem
      rw [hpc] at hinformed
      have hwid : workflowId = call.workflowId := by
        rw [← (World.mem_of_findWorkflow hold).2, hsameId, hid]
      subst hwid
      obtain rfl : old = found := Option.some.inj (hold.symm.trans hfound)
      simp only [hsame]
      exact hinformed.2.mono hkeeps
    · exact (h.verdicts workflowId old hold).mono hkeeps

theorem answer (h : s.Justified) (hinv : s.Inv) (hcall : s.calls[i]? = some call)
    (hmove : call.Move s.world s.waiting w' call') : Justified ⟨w', s.calls.set i call'⟩ := by
  have hmem := List.mem_of_getElem? hcall
  have hinformed := h.calls call hmem
  have hsound := hinv.calls call hmem
  cases hmove with
  | found wf hpc => exact h.set hcall rfl rfl rfl trivial fun _ hrow => Or.inl hrow
  | read wf rows hpc hperm =>
    refine h.set hcall rfl rfl rfl ⟨fun _ => id, fun row hrow _ => hperm.mem_iff.mp hrow, ?_⟩
      fun _ hrow => Or.inl hrow
    exact fun name state hstate => absurd hstate (by simp)
  | collected wf rows row left c hpc =>
    rw [hpc] at hinformed
    exact h.set hcall rfl rfl rfl (hinformed.add _) fun _ hrow => Or.inl hrow
  | decided wf rows c hpc =>
    rw [hpc] at hinformed
    exact h.set hcall rfl rfl rfl hinformed.decision fun _ hrow => Or.inl hrow
  | finished wf state hpc => exact h.finish hcall hsound hpc
  | committed wf hpc => exact h.commit hcall hsound
  | inserted wf launch rest taskId n now hpc hn hinsert hwaiting =>
    -- the plan is as old as the read, but dependencies that have succeeded stay so
    rw [hpc] at hinformed
    obtain ⟨hstep, hname, hsupports⟩ := hinformed launch List.mem_cons_self
    obtain ⟨hid, found, hfound, hsame⟩ := hsound.workflow wf (by rw [hpc]; rfl)
    refine h.set hcall rfl rfl rfl
      (fun other hother => hinformed other (List.mem_cons_of_mem _ hother))
      (Indexed.forall_mem_append_singleton (fun row hrow => Or.inl hrow) (Or.inr ?_))
    exact ⟨found, hfound, launch.step, hsame ▸ hstep, ⟨launch.stepName, rfl, hname⟩, rfl, hsupports⟩
  | published wf envelope rest hpc =>
    rw [hpc] at hinformed
    exact h.set hcall rfl rfl rfl hinformed fun _ hrow => Or.inl hrow
  | lost | aborted => exact h.set hcall rfl rfl rfl trivial fun _ hrow => Or.inl hrow

theorem step {a : Act} (h : s.Justified) (hinv : s.Inv) (hdistinct : s.Distinct)
    (hstep : s.step a = some s') : s'.Justified := by
  have hmoves := moves_of_step hstep
  have hkeeps := hmoves.keepsEnded hdistinct
  have hcalls : ∀ call ∈ s.calls, call.pc.Informed s'.world call.workflowId :=
    fun call hcall => (h.calls call hcall).mono hkeeps
  cases hmoves with
  | refused => exact h
  | @created workflowId name steps order hnone =>
    have hsteps := s.world.keepsSteps_withWorkflow ⟨workflowId, name, steps, .running⟩
    refine ⟨hcalls, fun call hcall row hrow =>
      grounds_mono hkeeps hsteps (h.inserted call hcall row hrow), fun row hrow => ?_, ?_⟩
    · obtain ⟨owner, old, howner, hfind, hground⟩ := h.rows row hrow
      obtain ⟨old', hfind', hground'⟩ := grounds_mono hkeeps hsteps ⟨old, hfind, hground⟩
      exact ⟨owner, old', howner, hfind', hground'⟩
    · -- a new workflow is running, and says nothing yet
      intro other wf hfind
      rw [World.findWorkflow, World.withWorkflow, List.find?_append, Option.or_eq_some_iff] at hfind
      rcases hfind with hold | ⟨-, hnew⟩
      · exact (h.verdicts other wf hold).mono hkeeps
      · rw [List.mem_singleton.mp (List.mem_of_find?_eq_some hnew)]
        trivial
  | began =>
    exact h.frame hkeeps rfl (Indexed.forall_mem_append_singleton hcalls trivial)
      (Indexed.forall_mem_append_singleton h.inserted fun row hrow => absurd hrow List.not_mem_nil)
      (fun row hrow => ⟨row, hrow, rfl, rfl, rfl⟩) rfl
  | answered hcall hanswer => exact h.answer hinv hcall (AdvanceCall.move_of_answer hanswer)
  | delivered | adopted =>
    exact h.frame hkeeps rfl hcalls h.inserted (fun row hrow => ⟨row, hrow, rfl, rfl, rfl⟩) rfl
  | progressed _ hprogress =>
    refine h.frame hkeeps hprogress.workflows hcalls (fun call hcall row hrow =>
      grounds_mono hkeeps (.of_workflows_eq hprogress.workflows) (h.inserted call hcall row hrow))
      (fun row hrow => ?_) rfl
    obtain ⟨-, taskId, state, attempt, found, -, -, htasks⟩ := hprogress
    obtain ⟨old, hold, rfl⟩ := List.mem_map.mp (htasks ▸ hrow)
    exact ⟨old, hold, by simp, by simp, by simp⟩

end Justified

theorem distinct_of_reaches (h : Reaches Calls.step .empty s) : s.Distinct := by
  have hboth : s.Inv ∧ s.Distinct := by
    refine h.invariant (I := fun s : Calls => s.Inv ∧ s.Distinct) ?_ ⟨inv_empty, distinct_empty⟩
    rintro s a t ⟨hinv, hdistinct⟩ hstep
    exact ⟨hinv.step hstep, hdistinct.step hinv hstep⟩
  exact hboth.2

theorem justified_of_reaches (h : Reaches Calls.step .empty s) : s.Justified :=
  h.invariant_along (I := Justified) justified_empty fun _ _ _ hreach hjustified _ hstep =>
    hjustified.step (inv_of_reaches hreach) (distinct_of_reaches hreach) hstep

end Calls

/-! ### What is reported -/

/-- One step in the answer of `GET /v1/workflows/{id}`. -/
structure WorkflowStepState where
  name : String
  taskName : String
  state : TaskState
  taskId : Option Uuid
deriving DecidableEq

/-- The answer, but for the time of creation. -/
structure WorkflowDetailResponse where
  id : Uuid
  name : String
  state : WorkflowState
  steps : List WorkflowStepState

/-- The dictionary `step_map`, in which the last of the tasks under a name stays. -/
def stepMap (tasks : List TaskRow) : String → Option TaskRow :=
  tasks.foldl (fun entries row =>
    match row.filedUnder with
    | some name => Function.update entries name (some row)
    | none => entries) fun _ => none

/-- `get_workflow` of the control plane, on the row of the workflow and on the tasks as they were
returned. -/
def getWorkflow (wf : WorkflowRow) (tasks : List TaskRow) : WorkflowDetailResponse where
  id := wf.id
  name := wf.name
  state := wf.state
  steps := wf.steps.map fun step =>
    match stepMap tasks step.name with
    | some row => ⟨step.name, step.task, row.state, some row.id⟩
    | none => ⟨step.name, step.task, .pending, none⟩

section Report

variable {tasks : List TaskRow} {name : String}

theorem stepMap_append_singleton (row : TaskRow) :
    stepMap (tasks ++ [row]) name =
      if row.filedUnder = some name then some row else stepMap tasks name := by
  simp only [stepMap, List.foldl_append, List.foldl_cons, List.foldl_nil]
  cases hunder : row.filedUnder with
  | none => simp
  | some filed =>
    by_cases hname : filed = name
    · simp [hname]
    · simp [hname, Function.update_of_ne (Ne.symm hname)]

theorem stepMap_eq_some {row : TaskRow} (h : stepMap tasks name = some row) :
    row ∈ tasks ∧ row.filedUnder = some name := by
  induction tasks using List.reverseRecOn with
  | nil => simp [stepMap] at h
  | append_singleton tasks last ih =>
    rw [stepMap_append_singleton] at h
    split_ifs at h with hunder
    · obtain rfl := Option.some.inj h
      exact ⟨by simp, hunder⟩
    · exact ⟨List.mem_append_left _ (ih h).1, (ih h).2⟩

theorem stepMap_eq_none (h : stepMap tasks name = none) :
    ∀ row ∈ tasks, row.filedUnder ≠ some name := by
  induction tasks using List.reverseRecOn with
  | nil => exact fun _ hrow => absurd hrow List.not_mem_nil
  | append_singleton tasks last ih =>
    rw [stepMap_append_singleton] at h
    split_ifs at h with hunder
    exact Indexed.forall_mem_append_singleton (ih h) hunder

end Report

namespace Calls

variable {s s' : Calls}

theorem Justified.keepsEnded_of_reaches (h : Reaches Calls.step .empty s)
    (hlater : Reaches Calls.step s s') : s.world.KeepsEnded s'.world := by
  have hall : s'.Inv ∧ s'.Distinct ∧ s.world.KeepsEnded s'.world := by
    refine hlater.invariant
      (I := fun t : Calls => t.Inv ∧ t.Distinct ∧ s.world.KeepsEnded t.world) ?_
      ⟨inv_of_reaches h, distinct_of_reaches h, fun _ _ hrow _ => hrow⟩
    rintro t a u ⟨hinv, hdistinct, hkept⟩ hstep
    refine ⟨hinv.step hstep, hdistinct.step hinv hstep, fun workflowId row hrow hended => ?_⟩
    exact (moves_of_step hstep).keepsEnded hdistinct workflowId row (hkept _ row hrow hended) hended
  exact hall.2.2

end Calls

end Dtq
