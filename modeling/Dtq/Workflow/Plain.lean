import Dtq.Workflow.Tracking

/-!
# Plain workflows

A workflow without fan-out runs to its end: every step gets at most one task, the final states are
reached for the right reasons and kept, and a call of `advance` that leaves the workflow running
leaves some task of it outstanding. The last part rests on the acceptance of the step list: the
first step in topological order that is not completed has all its dependencies completed, so it
has a task, or gets one in this call.

A value of `max_attempts` that is not an integer of the column's range makes every call that would
launch the step raise. The workflow is then left running with nothing outstanding.
-/

set_option autoImplicit false

namespace Dtq

open Transition

/-- Non-empty, pairwise distinct names, no fan-out, and acceptable retry entries. -/
structure PlainSteps (steps : List WorkflowStep) : Prop where
  nonempty : ∀ step ∈ steps, step.name ≠ ""
  nodup : (steps.map WorkflowStep.name).Nodup
  plain : ∀ step ∈ steps, step.fanOutField = none
  retry : ∀ step ∈ steps, RetryOk step.retry

theorem PlainSteps.wellNamed {steps : List WorkflowStep} (h : PlainSteps steps) :
    WellNamed steps where
  nonempty := h.nonempty
  nodup := h.nodup
  apart := fun _ _ other hother hfan => absurd (h.plain other hother) hfan

/-- The event calls `advance` on the workflow. -/
def World.Act.Advances (workflowId : Uuid) : World.Act → Prop
  | .submit called _ _ _ _ _ => called = workflowId
  | .advance called _ _ _ => called = workflowId
  | _ => False

/-! ### Nothing is stuck -/

section Outstanding

variable {w w' : World} {wf : WorkflowRow} {rows : List TaskRow} {ids : List Uuid}

/-- Some task of the workflow has not ended. -/
def Outstanding (w : World) (workflowId : Uuid) : Prop :=
  ∃ row ∈ w.tasksOf workflowId, row.state ≠ .succeeded ∧ row.state ≠ .dead

/-- A call that leaves a plain workflow running leaves some task outstanding. -/
theorem Tracked.outstanding (hplain : PlainSteps wf.steps) (h : Tracked w wf)
    (hsorted : ∃ topo, Sorted wf.steps topo) (hfind : w.findWorkflow wf.id = some wf)
    (hperm : rows.Perm (w.tasksOf wf.id)) (hout : w.Outcome wf rows ids w') {wf' : WorkflowRow}
    (hfind' : w'.findWorkflow wf.id = some wf') (hrunning : wf'.state = .running) :
    Outstanding w' wf.id := by
  have hnames := hplain.wellNamed
  have hset : ∀ state, state ≠ .running →
      (w.setWorkflowState wf.id state).findWorkflow wf.id ≠ some wf' := by
    intro state hstate hfound
    rw [World.findWorkflow_setWorkflowState, hfind, Option.map_some, if_pos rfl] at hfound
    rw [← Option.some.inj hfound] at hrunning
    exact hstate hrunning
  cases hout with
  | failed => exact absurd hfind' (hset .failed (by simp))
  | completed => exact absurd hfind' (hset .completed (by simp))
  | raised plan redis _ hplan hraised =>
    refine absurd (h.not_raised hnames hperm hplan hplain.retry fun step hdue => ?_) hraised
    simp [WorkflowStep.expand, hplain.plain step hdue.mem]
  | launched plan redis created hdead hleft hplan hids hcreated =>
    obtain ⟨topo, hsorted⟩ := hsorted
    obtain ⟨step, hready⟩ := hsorted.exists_ready (by simpa using hleft)
    obtain ⟨hstep, hnew, hdeps⟩ := mem_getReadySteps.mp hready
    have htasks := World.tasksOf_launched (w := w) redis hcreated
    rw [Outstanding, htasks]
    by_cases hnamed : ∃ row ∈ w.tasksOf wf.id, row.stepName = some step.name
    · -- it has a task already, which is neither succeeded nor dead
      obtain ⟨row, hrow, hname⟩ := hnamed
      refine ⟨row, List.mem_append_left _ hrow, fun hstate => hnew ?_, fun hstate => ?_⟩
      · exact (h.mem_namesIn hnames hperm).mpr ⟨row, hrow, hname, hstate⟩
      · have hmem := (h.mem_namesIn hnames hperm).mpr ⟨row, hrow, hname, hstate⟩
        rw [hdead] at hmem
        exact absurd hmem List.not_mem_nil
    · -- it gets one now
      have hdue : Due w wf step :=
        ⟨hstep, fun dep hdep => (h.mem_namesIn hnames hperm).mp (hdeps dep hdep),
          fun row hrow hname => hnamed ⟨row, hrow, hname⟩⟩
      obtain ⟨launches, hexpand, hall⟩ :=
        h.created_of_due hnames hperm hplan hcreated hids.1 hdue
      simp only [WorkflowStep.expand, hplain.plain step hstep, Option.some.injEq] at hexpand
      obtain ⟨row, hrow, -⟩ := hall ⟨step, step.name, step.payloadOf⟩ (by simp [← hexpand])
      have hpending := (created_pending hcreated row hrow).2
      exact ⟨row, List.mem_append_right _ hrow, by simp [hpending], by simp [hpending]⟩

end Outstanding

/-! ### Final states are kept -/

section Final

variable {w w' : World} {workflowId : Uuid} {wf : WorkflowRow}

/-- The row of the workflow and the ids of its tasks are the same. -/
structure SameWorkflow (workflowId : Uuid) (w w' : World) : Prop where
  row : w'.findWorkflow workflowId = w.findWorkflow workflowId
  ids : (w'.tasksOf workflowId).map TaskRow.id = (w.tasksOf workflowId).map TaskRow.id

theorem World.advance_of_final (hfind : w.findWorkflow workflowId = some wf)
    (hfinal : wf.state ≠ .running) {called : Uuid} {rows : List TaskRow} {ids : List Uuid}
    {now : ℚ} (hstep : w.advance called rows ids now = some w') :
    SameWorkflow workflowId w w' := by
  rcases advance_cases hstep with ⟨rfl, -⟩ | ⟨other, hother, hrunning, -, hout⟩
  · exact ⟨rfl, rfl⟩
  · have hne : workflowId ≠ other.id := by
      rw [(mem_of_findWorkflow hother).2]
      rintro rfl
      rw [Option.mem_unique hfind hother] at hfinal
      exact hfinal hrunning
    obtain ⟨htasks, hrow⟩ := hout.other hne
    exact ⟨hrow, by rw [htasks]⟩

/-- Once a workflow is completed or failed, no step changes its row or creates a task for it. -/
theorem World.step_of_final (hfind : w.findWorkflow workflowId = some wf)
    (hfinal : wf.state ≠ .running) {a : World.Act} (hstep : w.step a = some w') :
    SameWorkflow workflowId w w' := by
  rcases progress_cases hstep with
    ⟨called, name, steps, order, ids, now, rfl⟩ | ⟨called, rows, ids, now, rfl⟩ | hprogress
  · obtain ⟨-, rfl | ⟨-, hadvance⟩⟩ := submit_cases hstep
    · exact ⟨rfl, rfl⟩
    · have hkept : (w.withWorkflow ⟨called, name, steps, .running⟩).findWorkflow workflowId =
          some wf := by
        rw [findWorkflow] at hfind
        rw [findWorkflow, withWorkflow, List.find?_append, hfind]
        rfl
      have hsame := advance_of_final hkept hfinal hadvance
      exact ⟨by rw [hsame.row, hkept, hfind], hsame.ids⟩
  · exact advance_of_final hfind hfinal hstep
  · obtain ⟨taskId, state, attempt, found, -, -, htasks⟩ := hprogress.tasksOf_eq
    refine ⟨hprogress.findWorkflow_eq, ?_⟩
    rw [htasks, List.map_map]
    simp [Function.comp_def]

theorem World.reaches_of_final (hfind : w.findWorkflow workflowId = some wf)
    (hfinal : wf.state ≠ .running) (hrun : Reaches World.step w w') :
    SameWorkflow workflowId w w' := by
  refine Reaches.invariant (I := SameWorkflow workflowId w) ?_ hrun ⟨rfl, rfl⟩
  intro u a v hsame hstep
  have hnext := step_of_final (hsame.row.trans hfind) hfinal hstep
  exact ⟨hnext.row.trans hsame.row, hnext.ids.trans hsame.ids⟩

end Final

/-! ### Every run -/

theorem tracks_plain {w : World} (hrun : Reaches World.step .empty w) (workflowId : Uuid) :
    Tracks PlainSteps workflowId w := by
  refine tracks_reaches (fun _ h => h.wellNamed) (hrun.mono fun u a _ => ?_)
  -- there is no fan-out step that could have been expanded
  cases a with
  | advance called rows ids now =>
    intro _ wf _ hplain _ _ step hstep hfan
    exact absurd (hplain.plain step hstep) hfan
  | _ => trivial

/-- What holds right after a call of `advance` that leaves the workflow running. -/
theorem outstanding_of_advances {u w : World} (hrun : Reaches World.step .empty u) {a : World.Act}
    (hstep : u.step a = some w) {wf : WorkflowRow} (hadvances : a.Advances wf.id)
    (hwf : wf ∈ w.workflows) (hplain : PlainSteps wf.steps) (hrunning : wf.state = .running) :
    Outstanding w wf.id := by
  have hinv := World.inv_reaches hrun
  have hfind := (World.inv_step hinv hstep).findWorkflow_eq hwf
  -- the call, from a state in which the workflow is there and its tasks are in order
  have hcall : ∀ {v : World} {rows : List TaskRow} {ids : List Uuid} {now : ℚ},
      v.Inv → Tracks PlainSteps wf.id v → v.advance wf.id rows ids now = some w →
        Outstanding w wf.id := by
    intro v rows ids now hvinv htracks hadvance
    rcases World.advance_cases hadvance with ⟨rfl, hfinal⟩ | ⟨before, hbefore, -, hperm, hout⟩
    · exact absurd hrunning (hfinal wf hfind)
    · obtain ⟨hmem, hid⟩ := World.mem_of_findWorkflow hbefore
      rw [← hid] at hbefore hperm hfind ⊢
      obtain ⟨state, hrow⟩ := hout.row hbefore
      have hsteps : before.steps = wf.steps := by
        rw [← Option.mem_unique hrow hfind]
      have hplain' : PlainSteps before.steps := hsteps ▸ hplain
      exact (htracks before (hid ▸ hbefore) hplain').outstanding hplain'
        (hvinv.accepted before hmem) hbefore hperm hout hfind hrunning
  cases a with
  | submit called name steps order ids now =>
    obtain rfl : called = wf.id := hadvances
    obtain ⟨hnone, rfl | ⟨hsorted, hadvance⟩⟩ := World.submit_cases hstep
    · rw [hfind] at hnone
      exact absurd hnone (by simp)
    · have hcreated : (u.withWorkflow ⟨wf.id, name, steps, .running⟩).Inv :=
        hinv.withWorkflow hnone hsorted
      have htracks : Tracks PlainSteps wf.id (u.withWorkflow ⟨wf.id, name, steps, .running⟩) :=
        (tracks_plain hrun wf.id).withWorkflow hinv hnone rfl
      exact hcall hcreated htracks hadvance
  | advance called rows ids now =>
    obtain rfl : called = wf.id := hadvances
    exact hcall hinv (tracks_plain hrun _) hstep
  | lease => exact hadvances.elim
  | succeed => exact hadvances.elim
  | die => exact hadvances.elim

/-- **Plain workflows run to the end.** In every state of every run, for every workflow with
non-empty, pairwise distinct step names, no fan-out and acceptable retry entries:

* every task belongs to a step, and each step has at most one;
* it is completed only with all its steps succeeded, and failed only with a dead task; once in
  either state its row never changes and no task is created for it;
* if the last event was a call of `advance` on it and it is running, some task of it is neither
  succeeded nor dead. -/
theorem plain_workflow_runs_to_end {w : World} (hrun : Reaches World.step .empty w)
    {wf : WorkflowRow} (hwf : wf ∈ w.workflows) (hplain : PlainSteps wf.steps) :
    (∀ row ∈ w.tasksOf wf.id, ∃ step ∈ wf.steps, row.stepName = some step.name) ∧
    (∀ step ∈ wf.steps,
      (w.tasksOf wf.id).countP (fun row => row.stepName = some step.name) ≤ 1) ∧
    (wf.state = .completed → ∀ step ∈ wf.steps, w.Succeeded wf.id step.name) ∧
    (wf.state = .failed → ∃ row ∈ w.tasksOf wf.id, row.state = .dead) ∧
    (wf.state ≠ .running → ∀ w', Reaches World.step w w' →
      (∀ wf' ∈ w'.workflows, wf'.id = wf.id → wf' = wf) ∧ wf ∈ w'.workflows ∧
        (w'.tasksOf wf.id).map TaskRow.id = (w.tasksOf wf.id).map TaskRow.id) ∧
    (∀ u a, Reaches World.step .empty u → u.step a = some w → a.Advances wf.id →
      wf.state = .running → Outstanding w wf.id) := by
  have hinv := World.inv_reaches hrun
  have hfind := hinv.findWorkflow_eq hwf
  have h := tracks_plain hrun wf.id wf hfind hplain
  refine ⟨fun row hrow => ?_, fun step _ => ?_, h.completed, h.failed, fun hfinal w' hrun' => ?_,
    fun u a hu hstep hadvances => outstanding_of_advances hu hstep hadvances hwf hplain⟩
  · obtain ⟨step, hstep, name, hname, htask⟩ := h.named row hrow
    rw [(WorkflowStep.taskName_of_plain (hplain.plain step hstep)).mp htask] at hname
    exact ⟨step, hstep, hname⟩
  · have hcount := List.nodup_iff_count_le_one.mp h.nodup (some step.name)
    rw [List.count, List.countP_map] at hcount
    exact le_of_eq_of_le (List.countP_congr fun row _ => by simp) hcount
  · have hsame := World.reaches_of_final hfind hfinal hrun'
    have hfind' := hsame.row.trans hfind
    have hinv' := World.inv_reaches (hrun.trans hrun')
    refine ⟨fun wf' hwf' hid => ?_, (World.mem_of_findWorkflow hfind').1, hsame.ids⟩
    have hother := hinv'.findWorkflow_eq hwf'
    rw [hid] at hother
    exact Option.mem_unique hother hfind'

/-- Two steps, the second after the first, run to completion: the tasks succeed one after the other
with a call of `advance` after each, and an extra call in between. -/
theorem plain_workflow_runs_to_end_pair :
    let steps : List WorkflowStep := [⟨"a", "f", none, [], none, .absent⟩,
      ⟨"b", "g", none, ["a"], none, .mapping [("max_attempts", .num 3)]⟩]
    ∃ w wf, Reaches World.step .empty w ∧ wf ∈ w.workflows ∧ wf.steps = steps ∧
      wf.state = .completed ∧ PlainSteps steps ∧
      ∀ step ∈ wf.steps, w.Succeeded wf.id step.name := by
  intro steps
  have hplain : PlainSteps steps := ⟨by decide, by decide, by decide, by decide +kernel⟩
  let first (state : TaskState) (attempt : ℕ) : TaskRow :=
    { Launch.row ⟨⟨"a", "f", none, [], none, .absent⟩, "a", .obj []⟩ ⟨1⟩ ⟨2⟩ 5 with
      state := state, attempt := attempt }
  let second (state : TaskState) (attempt : ℕ) : TaskRow :=
    { Launch.row ⟨⟨"b", "g", none, ["a"], none, .absent⟩, "b", .obj []⟩ ⟨1⟩ ⟨3⟩ 3 with
      state := state, attempt := attempt }
  obtain ⟨w, hrun, hrows⟩ := exists_run_of_check World.step .empty
    [.submit ⟨1⟩ "w" steps ["a", "b"] [⟨2⟩] 0, .lease ⟨2⟩, .succeed ⟨2⟩ 1 none,
      .advance ⟨1⟩ [first .succeeded 1] [⟨3⟩] 0,
      .advance ⟨1⟩ [second .pending 0, first .succeeded 1] [] 0, .lease ⟨3⟩,
      .succeed ⟨3⟩ 2 none, .advance ⟨1⟩ [first .succeeded 1, second .succeeded 1] [] 0]
    (fun w => w.workflows = [⟨⟨1⟩, "w", steps, .completed⟩]) (by decide +kernel)
  have hreaches : Reaches World.step .empty w := .of_run hrun
  have hmem : (⟨⟨1⟩, "w", steps, .completed⟩ : WorkflowRow) ∈ w.workflows := by simp [hrows]
  have hend := plain_workflow_runs_to_end hreaches hmem hplain
  exact ⟨w, _, hreaches, hmem, rfl, rfl, hplain, hend.2.2.1 rfl⟩

/-- A step whose `max_attempts` is a text: `submit` commits the workflow and then raises, and the
workflow is left running without a task. -/
theorem plain_workflow_stuck :
    let steps : List WorkflowStep :=
      [⟨"a", "f", none, [], none, .mapping [("max_attempts", .str "3")]⟩]
    (∀ step ∈ steps, step.name ≠ "" ∧ step.fanOutField = none ∧
        ∃ fields, step.retry = .mapping fields) ∧
      (steps.map WorkflowStep.name).Nodup ∧
      ∃ w wf, World.step .empty (.submit ⟨1⟩ "w" steps ["a"] [⟨2⟩] 0) = some w ∧
        wf ∈ w.workflows ∧ wf.steps = steps ∧ wf.state = .running ∧ ¬ Outstanding w wf.id := by
  intro steps
  refine ⟨by simp [steps, WorkflowStep.fanOutField], by decide, ?_⟩
  have hrun : (World.step .empty (.submit ⟨1⟩ "w" steps ["a"] [⟨2⟩] 0)).any (fun w =>
      decide (w.workflows = [⟨⟨1⟩, "w", steps, .running⟩] ∧ w.tasksOf ⟨1⟩ = [])) = true := by
    decide +kernel
  obtain ⟨w, hw, hcheck⟩ := (Option.any_eq_true _ _).mp hrun
  obtain ⟨hrows, htasks⟩ := of_decide_eq_true hcheck
  refine ⟨w, ⟨⟨1⟩, "w", steps, .running⟩, hw, by simp [hrows], rfl, rfl, ?_⟩
  rintro ⟨row, hrow, -⟩
  rw [htasks] at hrow
  exact absurd hrow List.not_mem_nil

end Dtq
