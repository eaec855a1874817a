import Dtq.Control.Workflows
import Dtq.System.Moves

/-!
# Workflows and the workers

The workers of the system over the stores in which `submit` starts workflows, with nobody else at
work. A worker that completes a task records its success or its death and acknowledges the message.
It does not call `on_task_completed`, and nothing else does: the row of the workflow and the set of
its tasks stay as `submit` left them.

So a workflow has moved on as it should only while there is nothing for it to move on to: none of
its tasks is dead, some step has not succeeded, and every step with dependencies has one that has
not. `Calm` is the condition on a step that keeps this so.

## Main results

* `MovedOn.iff_nothingDue` — after a successful `submit`, a workflow has moved on exactly when
  nothing is due
* `Deployment.movedOn_iff_calm` — it has in every state of a calm run, and a step that is not calm
  loses that
-/

set_option autoImplicit false

namespace Dtq

open Transition

/-! ### The deployment -/

/-- A worker, the scheduler or time makes the move. -/
def Action.isWork : Action → Bool
  | .deliver .. | .adopt .. | .jobStep .. | .handler .. | .heartbeat _ | .promote .. | .expire _ =>
    true
  | .post .. | .postStep .. | .produce .. | .requeue .. | .requeueStep .. | .cancel _ => false

/-- The system and the `workflows` table. -/
structure Deployment where
  sys : Sys
  workflows : List WorkflowRow

namespace Deployment

/-- Nothing has happened. -/
def empty : Deployment := ⟨.init, []⟩

variable (d : Deployment)

/-- What the engine sees. -/
def world : World := ⟨d.sys.stores, d.workflows⟩

/-- A call of `submit`, or a move of the workers. -/
inductive Act
  | submit (workflowId : Uuid) (name : String) (steps : List WorkflowStep) (order : List String)
      (ids : List Uuid) (now : ℚ)
  | work (a : Action)

/-- One such event. -/
def step : Act → Option Deployment
  | .submit workflowId name steps order ids now =>
    (d.world.submit workflowId name steps order ids now).map fun w =>
      ⟨d.sys.withStores w.stores, w.workflows⟩
  | .work a => if a.isWork then (d.sys.step a).map fun sys => { d with sys := sys } else none

/-- No worker is processing a message. -/
def Idle : Prop := ∀ job ∈ d.sys.jobs, job.pc = .ended

end Deployment

/-- The workflow is where its tasks say: every step whose dependencies have succeeded has a task,
and the row has the final state that the tasks call for. -/
structure MovedOn (w : World) (wf : WorkflowRow) : Prop where
  launched : ∀ step ∈ wf.steps, (∀ dep ∈ step.dependsOn, w.Succeeded wf.id dep) →
    ∃ row ∈ w.tasksOf wf.id, row.stepName = some step.name
  completed : (∀ step ∈ wf.steps, w.Succeeded wf.id step.name) → wf.state = .completed
  failed : (∃ row ∈ w.tasksOf wf.id, row.state = .dead) → wf.state = .failed

/-- Some step has not succeeded, and every step with dependencies has one that has not. -/
structure World.Waits (w : World) (wf : WorkflowRow) : Prop where
  unfinished : ∃ step ∈ wf.steps, ¬ w.Succeeded wf.id step.name
  held : ∀ step ∈ wf.steps, step.dependsOn ≠ [] →
    ∃ dep ∈ step.dependsOn, ¬ w.Succeeded wf.id dep

/-- One task's state is written. -/
def World.withTaskState (w : World) (taskId : Uuid) (state : TaskState) : World :=
  { w with stores := { w.stores with db := w.stores.db.updateTaskState taskId state none } }

/-- The write of a worker's job leaves the workflow nothing to move on to: the job is not at the
mark of a dead task, and if it commits a success, the workflow then still waits. -/
def Deployment.Spares (workflowId : Uuid) (d : Deployment) (job : Job) : Prop :=
  match job.pc with
  | .markDead => False
  | .execute (.commitSuccess _ true) => ∀ wf ∈ d.world.findWorkflow workflowId,
      (d.world.withTaskState job.envelope.taskId .succeeded).Waits wf
  | _ => True

/-- `submit` can launch the steps without dependencies. A worker that writes into the rows of the
workflow's tasks spares the workflow. -/
def Deployment.Calm (workflowId : Uuid) (d : Deployment) : Deployment.Act → Prop
  | .submit called _ steps _ _ _ =>
    called = workflowId → ∀ step ∈ steps, step.dependsOn = [] → RetryOk step.retry
  | .work (.jobStep i reply) => reply.applied = true → ∀ job ∈ d.sys.jobs[i]?,
      (∃ row ∈ d.world.tasksOf workflowId, row.id = job.envelope.taskId) →
        d.Spares workflowId job
  | .work _ => True

/-! ### What nobody changes -/

/-- What `submit` leaves of a workflow whose first steps it could launch: its state, and a task for
each of those steps and for no other. -/
structure Submitted (w : World) (wf : WorkflowRow) : Prop where
  state : wf.state = if wf.steps = [] then .completed else .running
  rows : ∀ row ∈ w.tasksOf wf.id, ∃ step ∈ wf.steps, step.dependsOn = [] ∧
    row.stepName = some step.name
  roots : ∀ step ∈ wf.steps, step.dependsOn = [] →
    ∃ row ∈ w.tasksOf wf.id, row.stepName = some step.name

/-- Nothing calls for a call of `advance`. -/
structure NothingDue (w : World) (wf : WorkflowRow) : Prop where
  alive : ∀ row ∈ w.tasksOf wf.id, row.state ≠ .dead
  waits : wf.steps ≠ [] → w.Waits wf

section States

variable {w w' : World} {wf : WorkflowRow}

/-- A workflow as `submit` left it has moved on exactly when nothing is due. -/
theorem MovedOn.iff_nothingDue (h : Submitted w wf)
    (hnodup : (wf.steps.map WorkflowStep.name).Nodup) : MovedOn w wf ↔ NothingDue w wf := by
  constructor
  · intro hmoved
    refine ⟨fun row hrow hdead => ?_, fun hne => ⟨?_, fun step hstep hdeps => ?_⟩⟩
    · have hfailed := hmoved.failed ⟨row, hrow, hdead⟩
      rw [h.state] at hfailed
      split_ifs at hfailed
    · by_contra hall
      have hcompleted := hmoved.completed fun step hstep => by
        by_contra hnot
        exact hall ⟨step, hstep, hnot⟩
      rw [h.state, if_neg hne] at hcompleted
      exact absurd hcompleted (by simp)
    · by_contra hall
      obtain ⟨row, hrow, hname⟩ := hmoved.launched step hstep fun dep hdep => by
        by_contra hnot
        exact hall ⟨dep, hdep, hnot⟩
      -- only steps without dependencies have tasks
      obtain ⟨root, hroot, hnone, hname'⟩ := h.rows row hrow
      have hsame : step = root := List.inj_on_of_nodup_map hnodup hstep hroot
        (Option.mem_unique hname hname')
      exact hdeps (hsame ▸ hnone)
  · intro hdue
    refine ⟨fun step hstep hsucceeded => ?_, fun hall => ?_, ?_⟩
    · by_cases hdeps : step.dependsOn = []
      · exact h.roots step hstep hdeps
      · obtain ⟨dep, hdep, hnot⟩ := (hdue.waits (List.ne_nil_of_mem hstep)).held step hstep hdeps
        exact absurd (hsucceeded dep hdep) hnot
    · by_cases hnil : wf.steps = []
      · rw [h.state, if_pos hnil]
      · obtain ⟨step, hstep, hnot⟩ := (hdue.waits hnil).unfinished
        exact absurd (hall step hstep) hnot
    · rintro ⟨row, hrow, hdead⟩
      exact absurd hdead (hdue.alive row hrow)

theorem World.Waits.of_imp (h : w.Waits wf)
    (himp : ∀ name, w'.Succeeded wf.id name → w.Succeeded wf.id name) : w'.Waits wf where
  unfinished := by
    obtain ⟨step, hstep, hnot⟩ := h.unfinished
    exact ⟨step, hstep, mt (himp step.name) hnot⟩
  held := by
    intro step hstep hdeps
    obtain ⟨dep, hdep, hnot⟩ := h.held step hstep hdeps
    exact ⟨dep, hdep, mt (himp dep) hnot⟩

theorem World.Waits.congr (h : w.Waits wf) (htasks : w'.tasksOf wf.id = w.tasksOf wf.id) :
    w'.Waits wf := by
  refine h.of_imp fun name hsucceeded => ?_
  rwa [World.Succeeded, ← htasks]

theorem Submitted.congr (h : Submitted w wf) (htasks : w'.tasksOf wf.id = w.tasksOf wf.id) :
    Submitted w' wf := by
  refine ⟨h.state, ?_, ?_⟩
  · rw [htasks]
    exact h.rows
  · rw [htasks]
    exact h.roots

theorem NothingDue.congr (h : NothingDue w wf) (htasks : w'.tasksOf wf.id = w.tasksOf wf.id) :
    NothingDue w' wf := by
  refine ⟨?_, fun hne => (h.waits hne).congr htasks⟩
  rw [htasks]
  exact h.alive

variable {taskId : Uuid} {state : TaskState} {attempt : Option ℕ}

/-- Writing a task's state changes neither names nor owners. -/
theorem Submitted.setState (h : Submitted w wf)
    (htasks : w'.tasksOf wf.id = (w.tasksOf wf.id).map (Db.setState taskId state attempt)) :
    Submitted w' wf := by
  refine ⟨h.state, fun row hrow => ?_, fun step hstep hdeps => ?_⟩
  · rw [htasks] at hrow
    obtain ⟨old, hold, rfl⟩ := List.mem_map.mp hrow
    rw [Db.setState_stepName]
    exact h.rows old hold
  · obtain ⟨row, hrow, hname⟩ := h.roots step hstep hdeps
    refine ⟨Db.setState taskId state attempt row, ?_, by rw [Db.setState_stepName, hname]⟩
    rw [htasks]
    exact List.mem_map_of_mem hrow

end States

/-! ### A move of the workers -/

namespace Sys

variable {s s' : Sys} {a : Action}

/-- A call that takes effect does what it does when it returns. -/
theorem stores_of_applied {i : ℕ} {job : Job} {reply : Reply} (happlied : reply.applied = true)
    (h : s.stepJob i job reply = some s') :
    ∃ now draw out, job.proceed s.stores s.locks now draw = some out ∧ s'.stores = out.1 := by
  match reply with
  | .ok now draw =>
    obtain ⟨out, hout, rfl⟩ := Option.map_eq_some_iff.mp h
    exact ⟨now, draw, out, hout, rfl⟩
  | .raise true now draw message =>
    obtain ⟨out, hout, hrest⟩ := Option.bind_eq_some_iff.mp h
    obtain ⟨failed, -, rfl⟩ := Option.map_eq_some_iff.mp hrest
    exact ⟨now, draw, out, hout, rfl⟩
  | .raise false _ _ _ => exact absurd happlied (by simp [Reply.applied])
  | .crash => exact absurd happlied (by simp [Reply.applied])

/-- What the workers write into the task rows. -/
theorem tasks_of_work (h : s.step a = some s') (hwork : a.isWork = true) :
    s'.db.tasks = s.db.tasks ∨ ∃ i reply job, a = .jobStep i reply ∧ reply.applied = true ∧
      s.jobs[i]? = some job ∧ ∃ state attempt,
        s'.db.tasks = s.db.tasks.map (Db.setState job.envelope.taskId state attempt) ∧
        ((∃ result, job.pc = .execute (.commitSuccess result true)) ∧ state = .succeeded ∧
            attempt = none ∨
          job.pc = .execute .recordAttempt ∧ state = .leased ∨
          job.pc = .markDead ∧ state = .dead ∧ attempt = none) := by
  cases moves_of_step h with
  | @job _ i job _ _ ha hjob hmove =>
    rcases ha with ⟨reply, rfl, hreply⟩ | ⟨-, rfl⟩
    · cases happlied : reply.applied with
      | false => exact Or.inl (by rw [hreply happlied]; rfl)
      | true =>
        rcases hmove.tasks_cases with ⟨result, hpc, -, htasks⟩ | ⟨-, htasks | ⟨hpc, htasks⟩ |
          ⟨hpc, htasks⟩⟩
        · exact Or.inr ⟨i, reply, job, rfl, happlied, hjob, .succeeded, none, htasks,
            Or.inl ⟨⟨result, hpc⟩, rfl, rfl⟩⟩
        · exact Or.inl htasks
        · exact Or.inr ⟨i, reply, job, rfl, happlied, hjob, .leased, _, htasks,
            Or.inr (Or.inl ⟨hpc, rfl⟩)⟩
        · exact Or.inr ⟨i, reply, job, rfl, happlied, hjob, .dead, none, htasks,
            Or.inr (Or.inr ⟨hpc, rfl, rfl⟩)⟩
    · exact Or.inl rfl
  | delivered | adopted | leases | promoted => exact Or.inl rfl
  | posted | post | produced | requeued | requeue | cancelled =>
    exact absurd hwork (by simp [Action.isWork])

/-- A success that takes effect, and a death that does. -/
theorem tasks_of_applied {i : ℕ} {reply : Reply} {job : Job} (happlied : reply.applied = true)
    (hjob : s.jobs[i]? = some job) (h : s.step (.jobStep i reply) = some s') :
    (job.pc = .markDead →
      s'.db.tasks = s.db.tasks.map (Db.setState job.envelope.taskId .dead none)) ∧
    ∀ result, job.pc = .execute (.commitSuccess result true) →
      s'.db.tasks = s.db.tasks.map (Db.setState job.envelope.taskId .succeeded none) := by
  have hstep : s.stepJob i job reply = some s' := by simpa [step, hjob] using h
  obtain ⟨now, draw, out, hout, hstores⟩ := stores_of_applied happlied hstep
  have hdb : s'.db = out.1.db := congrArg Stores.db hstores
  constructor
  · intro hpc
    simp only [Job.proceed, hpc] at hout
    split_ifs at hout
    obtain rfl := Option.some.inj hout
    rw [hdb]
    rfl
  · intro result hpc
    simp only [Job.proceed, hpc, Job.executeOk] at hout
    split_ifs at hout
    obtain rfl := Option.some.inj hout
    rw [hdb]
    rfl

end Sys

namespace Deployment

variable {d d' : Deployment} {workflowId : Uuid} {wf : WorkflowRow}

theorem step_work {a : Action} (h : d.step (.work a) = some d') :
    a.isWork = true ∧ d.sys.step a = some d'.sys ∧ d'.workflows = d.workflows := by
  simp only [step] at h
  split_ifs at h with hwork
  obtain ⟨sys, hsys, rfl⟩ := Option.map_eq_some_iff.mp h
  exact ⟨hwork, hsys, rfl⟩

/-- What `submit` left stays, whatever the workers do. -/
theorem submitted_of_work {a : Action} (h : d.step (.work a) = some d')
    (hsubmitted : Submitted d.world wf) : Submitted d'.world wf := by
  obtain ⟨hwork, hsys, -⟩ := step_work h
  rcases Sys.tasks_of_work hsys hwork with
    hsame | ⟨i, reply, job, -, -, -, state, attempt, hmap, -⟩
  · exact hsubmitted.congr (World.tasksOf_congr hsame wf.id)
  · exact hsubmitted.setState (World.tasksOf_of_map hmap wf.id)

theorem alive_of_map {w w' : World} {taskId : Uuid} {state : TaskState} {attempt : Option ℕ}
    (halive : ∀ row ∈ w.tasksOf wf.id, row.state ≠ .dead) (hstate : state ≠ .dead)
    (htasks : w'.tasksOf wf.id = (w.tasksOf wf.id).map (Db.setState taskId state attempt)) :
    ∀ row ∈ w'.tasksOf wf.id, row.state ≠ .dead := by
  intro row hrow
  rw [htasks] at hrow
  obtain ⟨old, hold, rfl⟩ := List.mem_map.mp hrow
  unfold Db.setState
  split
  · exact hstate
  · exact halive old hold

/-- A calm move of the workers leaves nothing due. -/
theorem nothingDue_of_work {a : Action} (h : d.step (.work a) = some d')
    (hcalm : d.Calm wf.id (.work a)) (hfind : d.world.findWorkflow wf.id = some wf)
    (hdue : NothingDue d.world wf) : NothingDue d'.world wf := by
  obtain ⟨hwork, hsys, -⟩ := step_work h
  rcases Sys.tasks_of_work hsys hwork with
    hsame | ⟨i, reply, job, rfl, happlied, hjob, state, attempt, hmap, hcases⟩
  · exact hdue.congr (World.tasksOf_congr hsame wf.id)
  · have htasks : d'.world.tasksOf wf.id =
        (d.world.tasksOf wf.id).map (Db.setState job.envelope.taskId state attempt) :=
      World.tasksOf_of_map hmap wf.id
    by_cases howned : ∃ row ∈ d.world.tasksOf wf.id, row.id = job.envelope.taskId
    · have hallowed := hcalm happlied job hjob howned
      rcases hcases with ⟨⟨result, hpc⟩, rfl, rfl⟩ | ⟨hpc, rfl⟩ | ⟨hpc, -⟩
      · -- a success: the condition says that the workflow still waits
        simp only [Spares, hpc] at hallowed
        refine ⟨alive_of_map hdue.alive (by simp) htasks, fun _ => ?_⟩
        refine (hallowed wf hfind).congr ?_
        rw [htasks]
        exact (World.tasksOf_of_map rfl wf.id).symm
      · -- an attempt: no task has succeeded by it
        refine ⟨alive_of_map hdue.alive (by simp) htasks, fun hne => (hdue.waits hne).of_imp ?_⟩
        rintro name ⟨row, hrow, hname, hstate⟩
        rw [htasks] at hrow
        obtain ⟨old, hold, rfl⟩ := List.mem_map.mp hrow
        rw [Db.setState_stepName] at hname
        refine ⟨old, hold, hname, ?_⟩
        unfold Db.setState at hstate
        split at hstate
        · exact absurd hstate (by simp)
        · exact hstate
      · simp only [Spares, hpc] at hallowed
    · -- a task of another workflow
      refine hdue.congr (htasks.trans ?_)
      conv_rhs => rw [← List.map_id (d.world.tasksOf wf.id)]
      refine List.map_congr_left fun row hrow => ?_
      exact if_neg fun hid => howned ⟨row, hrow, hid⟩

/-- A move of the workers after which the workflow has moved on was calm. -/
theorem calm_of_work {a : Action} (h : d.step (.work a) = some d')
    (hfind : d.world.findWorkflow wf.id = some wf)
    (hnodup : (wf.steps.map WorkflowStep.name).Nodup) (hsubmitted : Submitted d.world wf)
    (hmoved : MovedOn d'.world wf) : d.Calm wf.id (.work a) := by
  have hdue := (MovedOn.iff_nothingDue (submitted_of_work h hsubmitted) hnodup).mp hmoved
  obtain ⟨-, hsys, -⟩ := step_work h
  cases a with
  | jobStep i reply =>
    rintro happlied job hjob ⟨row, hrow, hid⟩
    obtain ⟨hdead, hsuccess⟩ := Sys.tasks_of_applied happlied hjob hsys
    unfold Spares
    split
    · next hpc =>
      have htasks : d'.world.tasksOf wf.id =
          (d.world.tasksOf wf.id).map (Db.setState job.envelope.taskId .dead none) :=
        World.tasksOf_of_map (hdead hpc) wf.id
      refine hdue.alive (Db.setState job.envelope.taskId .dead none row) ?_ ?_
      · rw [htasks]
        exact List.mem_map_of_mem hrow
      · rw [Db.setState, if_pos hid]
    · next result hpc =>
      intro found hfound
      obtain rfl := Option.mem_unique hfind hfound
      have htasks : d'.world.tasksOf wf.id =
          (d.world.tasksOf wf.id).map (Db.setState job.envelope.taskId .succeeded none) :=
        World.tasksOf_of_map (hsuccess result hpc) wf.id
      obtain ⟨step, hstep, -⟩ := hsubmitted.rows row hrow
      refine (hdue.waits (List.ne_nil_of_mem hstep)).congr ?_
      rw [htasks]
      exact World.tasksOf_of_map rfl wf.id
    · trivial
  | _ => trivial

end Deployment

/-! ### A call of `submit` -/

section Submit

variable {w w' : World} {workflowId : Uuid} {name : String} {steps : List WorkflowStep}
  {order : List String} {ids : List Uuid} {now : ℚ} {wf : WorkflowRow}

theorem World.findWorkflow_append {rows : List WorkflowRow}
    (hworkflows : w'.workflows = w.workflows ++ rows) (workflowId : Uuid) :
    w'.findWorkflow workflowId =
      (w.findWorkflow workflowId).or (rows.find? fun wf => wf.id = workflowId) := by
  rw [World.findWorkflow, hworkflows, List.find?_append]
  rfl

/-- A workflow that has just been started is as `submit` leaves it, and nothing is due. -/
theorem Started.held (h : Started w w' wf now) (hfresh : w.findWorkflow wf.id = none)
    (hnil : w.tasksOf wf.id = []) (hplain : ∀ step ∈ wf.steps, step.fanOutField = none)
    {found : WorkflowRow} (hfound : w'.findWorkflow wf.id = some found) :
    Submitted w' found ∧ NothingDue w' found := by
  have hrow : found = { wf with state := if wf.steps = [] then .completed else .running } := by
    rw [World.findWorkflow_append h.workflows, hfresh] at hfound
    simpa using hfound.symm
  subst hrow
  -- the tasks of the workflow are the rows that `submit` created
  obtain ⟨rows, hdb, -, hstarted, -, -⟩ := h.launched
  have howner : ∀ row ∈ rows, row.workflowId = some wf.id := by
    intro row hrow
    obtain ⟨step, -, hstep⟩ := Indexed.exists_of_mem_right hstarted hrow
    exact hstep.owner
  have htasks : w'.tasksOf wf.id = rows := by
    have hrows : w'.stores.db.tasks = w.stores.db.tasks ++ rows := by rw [hdb]
    rw [World.tasksOf_of_append hrows howner, if_pos rfl, hnil, List.nil_append]
  -- the rows are those of the steps without dependencies, and pending
  have hnamed : ∀ step row, step ∈ rootSteps wf.steps → StartedAs wf.id step row →
      row.stepName = some step.name := by
    rintro step row hstep ⟨-, ⟨taskName, hname, htask⟩, -⟩
    have hfan := hplain step (List.mem_filter.mp hstep).1
    rw [(WorkflowStep.taskName_of_plain hfan).mp htask] at hname
    exact hname
  have hpending : ∀ row ∈ rows, row.state = .pending := by
    intro row hrow
    obtain ⟨step, -, hstep⟩ := Indexed.exists_of_mem_right hstarted hrow
    exact hstep.state
  have hnot : ∀ taskName, ¬ w'.Succeeded wf.id taskName := by
    rintro taskName ⟨row, hrow, -, hstate⟩
    rw [htasks] at hrow
    rw [hpending row hrow] at hstate
    exact absurd hstate (by simp)
  refine ⟨⟨rfl, fun row hrow => ?_, fun step hstep hdeps => ?_⟩, ⟨fun row hrow => ?_, fun hne =>
    ⟨?_, fun step _ hdeps => ?_⟩⟩⟩
  · rw [htasks] at hrow
    obtain ⟨step, hstep, hrow'⟩ := Indexed.exists_of_mem_right hstarted hrow
    exact ⟨step, (List.mem_filter.mp hstep).1, by simpa using (List.mem_filter.mp hstep).2,
      hnamed step row hstep hrow'⟩
  · have hroot : step ∈ rootSteps wf.steps := List.mem_filter.mpr ⟨hstep, by simpa using hdeps⟩
    obtain ⟨row, hrow, hrow'⟩ := Indexed.exists_of_mem_left hstarted hroot
    exact ⟨row, htasks ▸ hrow, hnamed step row hroot hrow'⟩
  · rw [htasks] at hrow
    rw [hpending row hrow]
    simp
  · obtain ⟨step, hstep⟩ := List.exists_mem_of_ne_nil _ hne
    exact ⟨step, hstep, hnot step.name⟩
  · obtain ⟨dep, hdep⟩ := List.exists_mem_of_ne_nil _ hdeps
    exact ⟨dep, hdep, hnot dep⟩

/-- A call of `submit` with a fresh id: refused, started, or left without a task. -/
theorem World.submit_fresh (hnil : w.tasksOf workflowId = [])
    (h : w.submit workflowId name steps order ids now = some w') :
    w.findWorkflow workflowId = none ∧ (w' = w ∨
      (∀ step ∈ steps, step.dependsOn = [] → RetryOk step.retry) ∧
        Started w w' ⟨workflowId, name, steps, .running⟩ now ∨
      (¬ ∀ step ∈ steps, step.dependsOn = [] → RetryOk step.retry) ∧
        w'.stores.db = w.stores.db ∧
        w'.workflows = w.workflows ++ [⟨workflowId, name, steps, .running⟩]) := by
  have hroots : (∀ step ∈ steps, step.dependsOn = [] → RetryOk step.retry) ↔
      firstRaised steps = none := by
    simp [firstRaised_eq_none_iff, rootSteps]
  obtain ⟨hfresh, -⟩ := World.submit_cases h
  refine ⟨hfresh, ?_⟩
  by_cases horder : order.Perm (DagTables.ofSteps steps).allNames
  · cases hdag : validateDag order steps with
    | error error =>
      simp only [World.submit, hfresh, horder, hdag, and_self, if_true] at h
      exact Or.inl (Option.some.inj h).symm
    | ok topo =>
      rw [World.submit_of_accepted hnil hfresh horder hdag] at h
      obtain ⟨hstarted, hraised⟩ := World.advance_initial hfresh h
      rw [hroots]
      by_cases hnone : firstRaised steps = none
      · exact Or.inr (Or.inl ⟨hnone, hstarted hnone⟩)
      · exact Or.inr (Or.inr ⟨hnone, hraised hnone⟩)
  · simp [World.submit, horder] at h

/-- A call of `submit` for another workflow. -/
theorem World.submit_other {called : Uuid} (hne : workflowId ≠ called)
    (h : w.submit called name steps order ids now = some w') :
    w'.tasksOf workflowId = w.tasksOf workflowId ∧
      w'.findWorkflow workflowId = w.findWorkflow workflowId := by
  obtain ⟨-, rfl | ⟨-, hadvance⟩⟩ := World.submit_cases h
  · exact ⟨rfl, rfl⟩
  · have hfind : (w.withWorkflow ⟨called, name, steps, .running⟩).findWorkflow workflowId =
        w.findWorkflow workflowId := by
      rw [World.findWorkflow_append (w := w) rfl, List.find?_singleton,
        if_neg (by simpa using hne.symm)]
      exact Option.or_none
    rcases World.advance_cases hadvance with ⟨rfl, -⟩ | ⟨found, hfound, -, -, hout⟩
    · exact ⟨rfl, hfind⟩
    · have hid : workflowId ≠ found.id := by
        rw [(World.mem_of_findWorkflow hfound).2]
        exact hne
      obtain ⟨htasks, hrow⟩ := hout.other hid
      exact ⟨htasks, hrow.trans hfind⟩

end Submit

/-! ### Calm runs -/

namespace Deployment

variable {d d' : Deployment} {workflowId : Uuid} {wf : WorkflowRow}

/-- What calm runs keep. -/
structure Held (workflowId : Uuid) (w : World) : Prop where
  absent : w.findWorkflow workflowId = none → w.tasksOf workflowId = []
  held : ∀ wf, w.findWorkflow workflowId = some wf →
    (∀ step ∈ wf.steps, step.fanOutField = none) → Submitted w wf ∧ NothingDue w wf

theorem step_submit {called : Uuid} {name : String} {steps : List WorkflowStep}
    {order : List String} {ids : List Uuid} {now : ℚ}
    (h : d.step (.submit called name steps order ids now) = some d') :
    d.world.submit called name steps order ids now = some d'.world := by
  obtain ⟨w, hw, rfl⟩ := Option.map_eq_some_iff.mp h
  exact hw

section Submit

variable {name : String} {steps : List WorkflowStep} {order : List String} {ids : List Uuid}
  {now : ℚ} {called : Uuid}

theorem Held.submit (h : Held workflowId d.world)
    (hcalm : d.Calm workflowId (.submit called name steps order ids now))
    (hstep : d.step (.submit called name steps order ids now) = some d') :
    Held workflowId d'.world := by
  have hsubmit := step_submit hstep
  by_cases hcalled : called = workflowId
  · subst hcalled
    have hfresh := (World.submit_cases hsubmit).1
    have hnil := h.absent hfresh
    obtain ⟨-, hsame | ⟨-, hstarted⟩ | ⟨hraised, -⟩⟩ := World.submit_fresh hnil hsubmit
    · rw [hsame]
      exact h
    · -- started: the row found is the one just inserted
      have hfind := World.findWorkflow_append hstarted.workflows called
      rw [hfresh] at hfind
      refine ⟨fun hnone => ?_, fun wf hwf hplain => ?_⟩
      · rw [hfind] at hnone
        simp at hnone
      · have hsteps : steps = wf.steps := by
          have hrow := hfind.symm.trans hwf
          simp only [Option.none_or, List.find?_singleton, decide_true, if_true,
            Option.some.injEq] at hrow
          rw [← hrow]
        exact hstarted.held hfresh hnil (hsteps ▸ hplain) hwf
    · exact absurd (hcalm rfl) hraised
  · obtain ⟨htasks, hfind⟩ := World.submit_other (Ne.symm hcalled) hsubmit
    refine ⟨fun hnone => htasks.trans (h.absent (hfind ▸ hnone)), fun wf hwf hplain => ?_⟩
    rw [hfind] at hwf
    obtain ⟨hsubmitted, hdue⟩ := h.held wf hwf hplain
    rw [← (World.mem_of_findWorkflow hwf).2] at htasks
    exact ⟨hsubmitted.congr htasks, hdue.congr htasks⟩

/-- A call of `submit` after which the workflow has moved on was calm. -/
theorem Held.calm_of_submit (h : Held workflowId d.world)
    (hstep : d.step (.submit called name steps order ids now) = some d')
    (hfind : d'.world.findWorkflow workflowId = some wf) (hmoved : MovedOn d'.world wf) :
    d.Calm workflowId (.submit called name steps order ids now) := by
  rintro rfl
  have hsubmit := step_submit hstep
  have hfresh := (World.submit_cases hsubmit).1
  have hnil := h.absent hfresh
  obtain ⟨-, hsame | ⟨hroots, -⟩ | ⟨hraised, hdb, hworkflows⟩⟩ := World.submit_fresh hnil hsubmit
  · -- refused: there is no row
    rw [hsame, hfresh] at hfind
    exact absurd hfind (by simp)
  · exact hroots
  · -- the row is there, and no step of it has a task
    refine absurd (fun step hstep hdeps => ?_) hraised
    have hrow := World.findWorkflow_append hworkflows called
    rw [hfresh, hfind] at hrow
    obtain rfl : wf = ⟨called, name, steps, .running⟩ := by simpa using hrow
    obtain ⟨row, hmem, -⟩ := hmoved.launched step hstep (by simp [hdeps])
    have hnone : d'.world.tasksOf called = [] := by
      rw [World.tasksOf, hdb]
      exact hnil
    rw [hnone] at hmem
    exact absurd hmem List.not_mem_nil

end Submit

theorem Held.work {a : Action} (h : Held workflowId d.world)
    (hcalm : d.Calm workflowId (.work a)) (hstep : d.step (.work a) = some d') :
    Held workflowId d'.world := by
  obtain ⟨hwork, hsys, hworkflows⟩ := step_work hstep
  have hfind : d'.world.findWorkflow workflowId = d.world.findWorkflow workflowId :=
    congrArg (List.find? _) hworkflows
  refine ⟨fun hnone => ?_, fun wf hwf hplain => ?_⟩
  · have hnil := h.absent (hfind ▸ hnone)
    rcases Sys.tasks_of_work hsys hwork with
      hsame | ⟨i, reply, job, -, -, -, state, attempt, hmap, -⟩
    · exact (World.tasksOf_congr hsame workflowId).trans hnil
    · refine (World.tasksOf_of_map (w := d.world) hmap workflowId).trans ?_
      rw [hnil, List.map_nil]
  · rw [hfind] at hwf
    obtain rfl := (World.mem_of_findWorkflow hwf).2
    obtain ⟨hsubmitted, hdue⟩ := h.held wf hwf hplain
    exact ⟨submitted_of_work hstep hsubmitted, nothingDue_of_work hstep hcalm hwf hdue⟩

theorem held_of_reaches (h : ReachesWhen Deployment.step (Calm workflowId) .empty d) :
    Held workflowId d.world := by
  refine h.invariant (I := fun d => Held workflowId d.world) (fun d a d' hheld hcalm hstep => ?_)
    ⟨fun _ => rfl, fun wf hfind => absurd hfind (by simp [World.findWorkflow, world, empty])⟩
  cases a with
  | submit called name steps order ids now => exact hheld.submit hcalm hstep
  | work a => exact hheld.work hcalm hstep

/-- **Completing a task.** In every state of a calm run, a workflow without fan-out and with
distinct step names has moved on. From such a state, exactly the calm steps lead to one in which it
has. -/
theorem movedOn_iff_calm (hrun : ReachesWhen Deployment.step (Calm workflowId) .empty d) :
    (∀ wf, d.world.findWorkflow workflowId = some wf →
      (∀ step ∈ wf.steps, step.fanOutField = none) →
      (wf.steps.map WorkflowStep.name).Nodup → MovedOn d.world wf) ∧
    ∀ a d', d.step a = some d' → ∀ wf, d'.world.findWorkflow workflowId = some wf →
      (∀ step ∈ wf.steps, step.fanOutField = none) →
      (wf.steps.map WorkflowStep.name).Nodup →
        (MovedOn d'.world wf ↔ d.Calm workflowId a) := by
  have hmoved : ∀ {d : Deployment}, Held workflowId d.world → ∀ wf,
      d.world.findWorkflow workflowId = some wf → (∀ step ∈ wf.steps, step.fanOutField = none) →
      (wf.steps.map WorkflowStep.name).Nodup → MovedOn d.world wf := by
    intro d h wf hfind hplain hnodup
    obtain ⟨hsubmitted, hdue⟩ := h.held wf hfind hplain
    exact (MovedOn.iff_nothingDue hsubmitted hnodup).mpr hdue
  have h := held_of_reaches hrun
  refine ⟨hmoved h, fun a d' hstep wf hfind hplain hnodup => ⟨fun hafter => ?_, fun hcalm => ?_⟩⟩
  · cases a with
    | submit called name steps order ids now => exact h.calm_of_submit hstep hfind hafter
    | work a =>
      have hbefore : d.world.findWorkflow workflowId = some wf := by
        rw [← hfind]
        exact congrArg (List.find? _) (step_work hstep).2.2.symm
      obtain rfl := (World.mem_of_findWorkflow hbefore).2
      exact calm_of_work hstep hbefore hnodup (h.held wf hbefore hplain).1 hafter
  · exact hmoved (held_of_reaches (hrun.tail hcalm hstep)) wf hfind hplain hnodup

instance (w : World) (workflowId : Uuid) (name : String) :
    Decidable (w.Succeeded workflowId name) :=
  inferInstanceAs (Decidable (∃ row ∈ w.tasksOf workflowId, _ ∧ _))

instance (w : World) (wf : WorkflowRow) : Decidable (w.Waits wf) :=
  decidable_of_iff ((∃ step ∈ wf.steps, ¬ w.Succeeded wf.id step.name) ∧
      ∀ step ∈ wf.steps, step.dependsOn ≠ [] →
        ∃ dep ∈ step.dependsOn, ¬ w.Succeeded wf.id dep)
    ⟨fun h => ⟨h.1, h.2⟩, fun h => ⟨h.unfinished, h.held⟩⟩

instance (workflowId : Uuid) (d : Deployment) (job : Job) :
    Decidable (d.Spares workflowId job) := by
  unfold Spares
  split <;> infer_instance

instance (workflowId : Uuid) (d : Deployment) : ∀ a : Act, Decidable (d.Calm workflowId a)
  | .submit called _ steps _ _ _ => inferInstanceAs
      (Decidable (called = workflowId → ∀ step ∈ steps, step.dependsOn = [] → RetryOk step.retry))
  | .work (.jobStep i reply) => inferInstanceAs
      (Decidable (reply.applied = true → ∀ job ∈ d.sys.jobs[i]?,
        (∃ row ∈ d.world.tasksOf workflowId, row.id = job.envelope.taskId) →
          d.Spares workflowId job))
  | .work (.deliver ..) | .work (.adopt ..) | .work (.handler ..) | .work (.heartbeat _)
  | .work (.promote ..) | .work (.expire _) | .work (.post ..) | .work (.postStep ..)
  | .work (.produce ..) | .work (.requeue ..) | .work (.requeueStep ..) | .work (.cancel _) =>
    inferInstanceAs (Decidable True)

/-- A worker is handed the next task, its handler ends, and the next `n` calls return. -/
def works (i : ℕ) (outcome : HandlerOutcome) (n : ℕ) : List Act :=
  let actions : List Action :=
    .deliver "v" 1000 "default" :: Sys.proceeds i 3 ++ .handler i outcome :: Sys.proceeds i n
  actions.map .work

/-- The theorem at a third step after two others, of which one has succeeded. -/
theorem movedOn_iff_calm_join :
    let steps : List WorkflowStep := [⟨"a", "f", none, [], none, .absent⟩,
      ⟨"b", "f", none, [], none, .absent⟩, ⟨"c", "g", none, ["a", "b"], none, .absent⟩]
    ∃ d, ReachesWhen Deployment.step (Calm ⟨1⟩) .empty d ∧ d.Idle ∧
      d.world.findWorkflow ⟨1⟩ = some ⟨⟨1⟩, "w", steps, .running⟩ ∧
      d.world.Succeeded ⟨1⟩ "a" ∧ MovedOn d.world ⟨⟨1⟩, "w", steps, .running⟩ := by
  intro steps
  obtain ⟨d, hrun, hidle, hfind, hsucceeded⟩ :=
    exists_reachesWhen_of_check Deployment.step (Calm ⟨1⟩) .empty
      (.submit ⟨1⟩ "w" steps ["a", "b", "c"] [⟨2⟩, ⟨3⟩] 0 :: works 0 (.returned none) 5)
      (fun d => (∀ job ∈ d.sys.jobs, job.pc = .ended) ∧
        d.world.findWorkflow ⟨1⟩ = some ⟨⟨1⟩, "w", steps, .running⟩ ∧
        d.world.Succeeded ⟨1⟩ "a")
      (by decide +kernel)
  exact ⟨d, hrun, hidle, hfind, hsucceeded,
    (movedOn_iff_calm hrun).1 _ hfind (by decide) (by decide)⟩

/-- Three tasks have been completed and nobody is at work. Of three workflows, the first has a step
that is due and has no task, the second has only steps that have succeeded and runs on, and the
third has a dead step and runs on. -/
theorem workflow_left_behind :
    let first : WorkflowStep := ⟨"a", "f", none, [], none, .absent⟩
    let second : WorkflowStep := ⟨"b", "g", none, ["a"], none, .absent⟩
    let fragile : WorkflowStep :=
      ⟨"a", "f", none, [], none, .mapping [("max_attempts", .num 1)]⟩
    (∀ step ∈ [first, second, fragile], step.fanOutField = none) ∧
    ∃ d, Reaches Deployment.step .empty d ∧ d.Idle ∧
      (d.world.findWorkflow ⟨1⟩ = some ⟨⟨1⟩, "chain", [first, second], .running⟩ ∧
        d.world.Succeeded ⟨1⟩ "a" ∧ ∀ row ∈ d.world.tasksOf ⟨1⟩, row.stepName ≠ some "b") ∧
      (d.world.findWorkflow ⟨2⟩ = some ⟨⟨2⟩, "single", [first], .running⟩ ∧
        d.world.Succeeded ⟨2⟩ "a") ∧
      d.world.findWorkflow ⟨3⟩ = some ⟨⟨3⟩, "fragile", [fragile], .running⟩ ∧
        ∃ row ∈ d.world.tasksOf ⟨3⟩, row.state = .dead := by
  intro first second fragile
  refine ⟨by decide, ?_⟩
  obtain ⟨d, hrun, hcheck⟩ := exists_run_of_check Deployment.step .empty
    (.submit ⟨1⟩ "chain" [first, second] ["a", "b"] [⟨4⟩] 0 ::
      .submit ⟨2⟩ "single" [first] ["a"] [⟨5⟩] 0 ::
      .submit ⟨3⟩ "fragile" [fragile] ["a"] [⟨6⟩] 0 ::
      works 0 (.returned none) 5 ++ works 1 (.returned none) 5 ++
      works 2 (.raised "ValueError" "boom") 5)
    (fun d => (∀ job ∈ d.sys.jobs, job.pc = .ended) ∧
      (d.world.findWorkflow ⟨1⟩ = some ⟨⟨1⟩, "chain", [first, second], .running⟩ ∧
        d.world.Succeeded ⟨1⟩ "a" ∧ ∀ row ∈ d.world.tasksOf ⟨1⟩, row.stepName ≠ some "b") ∧
      (d.world.findWorkflow ⟨2⟩ = some ⟨⟨2⟩, "single", [first], .running⟩ ∧
        d.world.Succeeded ⟨2⟩ "a") ∧
      d.world.findWorkflow ⟨3⟩ = some ⟨⟨3⟩, "fragile", [fragile], .running⟩ ∧
        ∃ row ∈ d.world.tasksOf ⟨3⟩, row.state = .dead)
    (by decide +kernel)
  exact ⟨d, .of_run hrun, hcheck⟩

end Deployment

end Dtq
