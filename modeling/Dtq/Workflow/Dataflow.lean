import Dtq.System.Attempts
import Dtq.Workflow.Concurrent
import Dtq.Workflow.Verdict

/-!
# What flows from step to step

The payloads of a fan-out step come out of the results of the steps it depends on. `advance` reads
tasks and effects statement by statement and creates the tasks later, one by one, while other
calls commit, workers go on, and calls raise or die.

Whatever is interleaved: every task that is there, and every envelope on the queue, is one of those
that its step expands to over results which succeeded tasks of its dependencies have given. And the
tasks that one call makes of a step are there together or not at all.

## Main results

* `Calls.Faithful.step` — one statement of one call, or one event, keeps this
* `Calls.tasks_as_specified` — so it holds in every run
-/

set_option autoImplicit false

namespace Dtq

open Transition

/-- The task was created for the launch, whatever has become of it since. -/
def TaskRow.Realizes (row : TaskRow) (workflowId : Uuid) (launch : Launch) : Prop :=
  ∃ n, maxAttemptsOf launch.step.retry = some n ∧ row.core = launch.row workflowId row.id n

theorem TaskRow.Realizes.of_core {row row' : TaskRow} {workflowId : Uuid} {launch : Launch}
    (h : row.Realizes workflowId launch) (hcore : row'.core = row.core) :
    row'.Realizes workflowId launch := by
  obtain ⟨n, hn, hrow⟩ := h
  have hid : row'.core.id = row.core.id := congrArg TaskRow.id hcore
  exact ⟨n, hn, hcore.trans (hrow.trans (congrArg (launch.row workflowId · n) hid.symm))⟩

theorem Db.hasEffect_of_present {db : Db} {key : String} {fence : ℕ}
    (h : db.checkEffect key fence = .present) : db.HasEffect key := by
  by_contra hnone
  have habsent : db.checkEffect key fence = .absent := checkEffect_eq_absent_iff.mpr hnone
  exact absurd (h.symm.trans habsent) (by simp)

namespace World

variable {w w' : World} {workflowId : Uuid}

/-- Every succeeded task has an effect. -/
def Evidenced (w : World) : Prop :=
  ∀ row ∈ w.stores.db.tasks, row.state = .succeeded →
    w.stores.db.HasEffect (TaskEnvelope.keyOr row.dedupKey row.id)

/-- What a succeeded task under this name has given, as its effect says. A falsy result counts as
none. -/
def Gave (w : World) (workflowId : Uuid) (name : String) (result : Option Json) : Prop :=
  ∃ row ∈ w.tasksOf workflowId, row.stepName = some name ∧ row.state = .succeeded ∧
    ∃ effect ∈ w.stores.db.effects,
      effect.dedupKey = TaskEnvelope.keyOr row.dedupKey row.id ∧
        effect.result.filter Json.truthy = result

/-- What the step expands to, over results that the steps it depends on have given. -/
def ExpandsTo (w : World) (workflowId : Uuid) (step : WorkflowStep) (launches : List Launch) :
    Prop :=
  ∃ results : String → Option Json,
    (∀ dep ∈ step.dependsOn, w.Gave workflowId dep (results dep)) ∧
      step.expand results = some launches

/-- The launch is one of those that a step of the workflow expands to, and `Made` holds of all of
them. -/
def Prescribes (w : World) (workflowId : Uuid) (launch : Launch) (Made : Launch → Prop) : Prop :=
  ∃ wf launches, w.findWorkflow workflowId = some wf ∧ launch.step ∈ wf.steps ∧
    w.ExpandsTo workflowId launch.step launches ∧ launch ∈ launches ∧
      ∀ other ∈ launches, Made other

/-- Some task was created for the launch. -/
def Realized (w : World) (workflowId : Uuid) (launch : Launch) : Prop :=
  ∃ row ∈ w.stores.db.tasks, row.Realizes workflowId launch

/-- Nothing that has been relied on is taken back: ended tasks, the steps of workflows, effects,
and all but the state and the attempt of every task. -/
structure Grows (w w' : World) : Prop where
  ended : w.KeepsEnded w'
  steps : w.KeepsSteps w'
  effects : w.stores.db.effects <+: w'.stores.db.effects
  cores : ∀ row ∈ w.stores.db.tasks, ∃ row' ∈ w'.stores.db.tasks, row'.core = row.core

/-- Steps that change no effect and change the tasks only by adding some. -/
theorem Grows.of_appended (hsteps : w.KeepsSteps w')
    (htasks : w.stores.db.tasks <+: w'.stores.db.tasks)
    (heffects : w'.stores.db.effects = w.stores.db.effects) : w.Grows w' where
  ended := .ofGrown htasks
  steps := hsteps
  effects := heffects ▸ List.prefix_refl _
  cores := fun row hrow => ⟨row, htasks.subset hrow, rfl⟩

theorem Prescribes.imp {launch : Launch} {Made Made' : Launch → Prop}
    (h : w.Prescribes workflowId launch Made) (hmade : ∀ other, Made other → Made' other) :
    w.Prescribes workflowId launch Made' := by
  obtain ⟨wf, launches, hfind, hstep, hexpands, hlaunch, hall⟩ := h
  exact ⟨wf, launches, hfind, hstep, hexpands, hlaunch,
    fun other hother => hmade other (hall other hother)⟩

section Mono

variable (hgrows : w.Grows w')
include hgrows

theorem Gave.mono {name : String} {result : Option Json} (h : w.Gave workflowId name result) :
    w'.Gave workflowId name result := by
  obtain ⟨row, hrow, hname, hstate, effect, heffect, hresult⟩ := h
  exact ⟨row, hgrows.ended _ row hrow (Or.inl hstate), hname, hstate, effect,
    hgrows.effects.subset heffect, hresult⟩

theorem ExpandsTo.mono {step : WorkflowStep} {launches : List Launch}
    (h : w.ExpandsTo workflowId step launches) : w'.ExpandsTo workflowId step launches := by
  obtain ⟨results, hgave, hexpand⟩ := h
  exact ⟨results, fun dep hdep => (hgave dep hdep).mono hgrows, hexpand⟩

theorem Prescribes.mono {launch : Launch} {Made : Launch → Prop}
    (h : w.Prescribes workflowId launch Made) : w'.Prescribes workflowId launch Made := by
  obtain ⟨wf, launches, hfind, hstep, hexpands, hlaunch, hall⟩ := h
  obtain ⟨wf', hfind', hsame⟩ := hgrows.steps _ _ hfind
  exact ⟨wf', launches, hfind', hsame ▸ hstep, hexpands.mono hgrows, hlaunch, hall⟩

theorem Realized.mono {launch : Launch} (h : w.Realized workflowId launch) :
    w'.Realized workflowId launch := by
  obtain ⟨row, hrow, hrealizes⟩ := h
  obtain ⟨row', hrow', hcore⟩ := hgrows.cores row hrow
  exact ⟨row', hrow', hrealizes.of_core hcore⟩

end Mono

/-- A task under `update_task_state` that is succeeded then, or was the one that was written. -/
theorem mem_or_key_of_succeeded {db : Db} (hids : (db.tasks.map TaskRow.id).Nodup) {taskId : Uuid}
    {found : TaskRow} (hfind : db.findTask taskId = some found) {row : TaskRow}
    (hrow : row ∈ (db.updateTaskState taskId .succeeded none).tasks) :
    row ∈ db.tasks ∨ TaskEnvelope.keyOr row.dedupKey row.id =
      TaskEnvelope.keyOr found.dedupKey found.id := by
  have hfound : found ∈ db.tasks ∧ found.id = taskId :=
    ⟨List.mem_of_find?_eq_some hfind, by simpa using List.find?_some hfind⟩
  obtain ⟨old, hold, rfl⟩ := List.mem_map.mp hrow
  by_cases hid : old.id = taskId
  · right
    obtain rfl : old = found :=
      List.inj_on_of_nodup_map hids hold hfound.1 (hid.trans hfound.2.symm)
    simp [Db.setState, hid]
  · left
    simpa [Db.setState, hid] using hold

/-- Progress keeps the effects, and a task that it makes a success of has one. -/
theorem effects_of_progress {b : World.Act} (h : w.step b = some w')
    (hprogress : (∃ taskId, b = .lease taskId) ∨
      (∃ taskId fence result, b = .succeed taskId fence result) ∨ ∃ taskId, b = .die taskId)
    (hids : (w.stores.db.tasks.map TaskRow.id).Nodup) :
    w.stores.db.effects <+: w'.stores.db.effects ∧
      (∀ row ∈ w'.stores.db.tasks, row.state = .succeeded → row ∈ w.stores.db.tasks ∨
        w'.stores.db.HasEffect (TaskEnvelope.keyOr row.dedupKey row.id)) := by
  rcases hprogress with ⟨taskId, rfl⟩ | ⟨taskId, fence, result, rfl⟩ | ⟨taskId, rfl⟩
  · simp only [World.step, World.lease] at h
    split at h
    · split_ifs at h
      obtain rfl := Option.some.inj h
      exact ⟨List.prefix_refl _, fun row hrow hstate =>
        Or.inl (Sys.mem_of_mem_setState hstate (by simp) hrow)⟩
    · exact absurd h (by simp)
  · simp only [World.step, World.succeed] at h
    split at h
    · next found hfind =>
      split_ifs at h
      -- the key of the task has an effect, the one inserted now or the one that was found
      split at h
      · obtain rfl := Option.some.inj h
        refine ⟨List.prefix_append _ _, fun row hrow _ => ?_⟩
        refine (mem_or_key_of_succeeded hids hfind hrow).imp_right fun hkey => ?_
        exact ⟨_, List.mem_append_right _ (List.mem_singleton_self _), hkey.symm⟩
      · next hpresent =>
        obtain rfl := Option.some.inj h
        refine ⟨List.prefix_refl _, fun row hrow _ => ?_⟩
        refine (mem_or_key_of_succeeded hids hfind hrow).imp_right fun hkey => ?_
        rw [hkey]
        exact Db.hasEffect_of_present hpresent
      · exact absurd h (by simp)
    · exact absurd h (by simp)
  · simp only [World.step, World.die] at h
    split at h
    · split_ifs at h
      obtain rfl := Option.some.inj h
      exact ⟨List.prefix_refl _, fun row hrow hstate =>
        Or.inl (Sys.mem_of_mem_setState hstate (by simp) hrow)⟩
    · exact absurd h (by simp)

end World

/-! ### One call -/

/-- Whatever the dictionaries say of a name that is filed as succeeded, a task has given. -/
def Collected.Given (w : World) (workflowId : Uuid) (c : Collected) : Prop :=
  ∀ name, c.states name = some .succeeded ∨ c.results name ≠ none →
    w.Gave workflowId name (c.results name)

/-- The result of a succeeded task is what its effect says. -/
theorem Collected.gave_resultOf {w : World} {workflowId : Uuid} {row : TaskRow} {name : String}
    (hevidenced : w.Evidenced) (hrow : row ∈ w.tasksOf workflowId)
    (hunder : row.filedUnder = some name) (hstate : row.state = .succeeded) :
    w.Gave workflowId name (resultOf w.stores.db row) := by
  have heffect := hevidenced row (Db.mem_tasksOf.mp hrow).1 hstate
  cases hfind : w.stores.db.findEffect (TaskEnvelope.keyOr row.dedupKey row.id) with
  | none => exact absurd heffect (Db.findEffect_eq_none_iff.mp hfind)
  | some effect =>
    obtain ⟨hmem, hkey⟩ := Db.hasEffect_of_findEffect hfind
    refine ⟨row, hrow, TaskRow.stepName_of_filedUnder hunder, hstate, effect, hmem, hkey, ?_⟩
    simp only [resultOf, hstate, if_true, hfind]

/-- Collecting one more task. -/
theorem Collected.Given.add {w : World} {workflowId : Uuid} {c : Collected} {row : TaskRow}
    (h : c.Given w workflowId) (hevidenced : w.Evidenced)
    (hrow : row.state = .succeeded → row ∈ w.tasksOf workflowId) :
    (c.add w.stores.db row).Given w workflowId := by
  intro name hname
  unfold Collected.add at hname ⊢
  cases hunder : row.filedUnder with
  | none =>
    rw [hunder] at hname
    exact h name hname
  | some filed =>
    simp only [hunder] at hname ⊢
    by_cases hsame : name = filed
    · subst hsame
      by_cases hstate : row.state = .succeeded
      · have hgave := gave_resultOf hevidenced (hrow hstate) hunder hstate
        cases hresult : resultOf w.stores.db row with
        | some result =>
          rw [hresult] at hgave
          simpa using hgave
        | none =>
          -- the result of another task filed under the name stays, if there is one
          rw [hresult] at hgave
          cases hold : c.results name with
          | some result =>
            have hbefore := h name (Or.inr (by simp [hold]))
            rw [hold] at hbefore
            simpa using hold ▸ hbefore
          | none => simpa using hold ▸ hgave
      · have hresult : resultOf w.stores.db row = none := by simp [resultOf, hstate]
        simp only [hresult, Function.update_self, Option.some.injEq, hstate, false_or] at hname ⊢
        exact h name (Or.inr hname)
    · have hother : c.states name = some .succeeded ∨ c.results name ≠ none := by
        cases hresult : resultOf w.stores.db row with
        | none => simpa [hresult, Function.update_of_ne hsame] using hname
        | some result => simpa [hresult, Function.update_of_ne hsame] using hname
      cases hresult : resultOf w.stores.db row with
      | none => simpa using h name hother
      | some result => simpa [Function.update_of_ne hsame] using h name hother

namespace AdvanceCall

/-- The call has created a task for the launch, or is still to create it. -/
def Covers (call : AdvanceCall) (launch : Launch) : Prop :=
  some launch ∈ call.pc.planned ∨ ∃ row ∈ call.inserted, row.Realizes call.workflowId launch

/-- The results that the call has read are those that tasks have given. What it is to create, and
what it has created, are launches of steps; and it covers each of these steps as long as it does
not give up. -/
structure Faithful (w : World) (call : AdvanceCall) : Prop where
  given : ∀ wf rows left c, call.pc = .getEffects wf rows left c → c.Given w call.workflowId
  planned : ∀ launch, some launch ∈ call.pc.planned →
    w.Prescribes call.workflowId launch call.Covers
  inserted : ∀ row ∈ call.inserted, row.state ≠ .succeeded ∧ ∃ launch,
    row.Realizes call.workflowId launch ∧
      w.Prescribes call.workflowId launch fun other => call.pc ≠ .ended false → call.Covers other

variable {w w' : World} {call : AdvanceCall}

theorem Faithful.mono (h : call.Faithful w) (hgrows : w.Grows w') : call.Faithful w' where
  given := fun wf rows left c hpc name hname => (h.given wf rows left c hpc name hname).mono hgrows
  planned := fun launch hlaunch => (h.planned launch hlaunch).mono hgrows
  inserted := by
    intro row hrow
    obtain ⟨hstate, launch, hrealizes, hprescribes⟩ := h.inserted row hrow
    exact ⟨hstate, launch, hrealizes, hprescribes.mono hgrows⟩

/-- The call goes on: what it was to create, it has created or is still to create, unless it gives
up. -/
theorem Faithful.next (h : call.Faithful w) {call' : AdvanceCall}
    (hid : call'.workflowId = call.workflowId)
    (hgiven : ∀ wf rows left c, call'.pc = .getEffects wf rows left c → c.Given w call.workflowId)
    (hplanned : ∀ launch, some launch ∈ call'.pc.planned → some launch ∈ call.pc.planned)
    (hinserted : ∀ row ∈ call'.inserted, row ∈ call.inserted ∨ row.state ≠ .succeeded ∧
      ∃ launch, some launch ∈ call.pc.planned ∧ row.Realizes call.workflowId launch)
    (hcovers : call'.pc ≠ .ended false → call.pc ≠ .ended false ∧
      ∀ other, call.Covers other → call'.Covers other) : call'.Faithful w where
  given := by
    rw [hid]
    exact hgiven
  planned := by
    intro launch hlaunch
    have hopen : call'.pc ≠ .ended false := by
      intro hended
      rw [hended] at hlaunch
      exact absurd hlaunch List.not_mem_nil
    rw [hid]
    exact (h.planned launch (hplanned launch hlaunch)).imp (hcovers hopen).2
  inserted := by
    intro row hrow
    rw [hid]
    rcases hinserted row hrow with hold | ⟨hstate, launch, hlaunch, hrealizes⟩
    · obtain ⟨hstate, launch, hrealizes, hprescribes⟩ := h.inserted row hold
      exact ⟨hstate, launch, hrealizes, hprescribes.imp fun other hother hopen =>
        (hcovers hopen).2 other (hother (hcovers hopen).1)⟩
    · exact ⟨hstate, launch, hrealizes, (h.planned launch hlaunch).imp fun other hother hopen =>
        (hcovers hopen).2 other hother⟩

/-- The call goes on with as much to create as before, or gives up. -/
theorem Faithful.stay (h : call.Faithful w) {call' : AdvanceCall}
    (hid : call'.workflowId = call.workflowId) (hinserted : call'.inserted = call.inserted)
    (hgiven : ∀ wf rows left c, call'.pc = .getEffects wf rows left c → c.Given w call.workflowId)
    (hopen : call.pc ≠ .ended false)
    (hplanned : call'.pc = .ended false ∨ call'.pc.planned = call.pc.planned) :
    call'.Faithful w := by
  refine h.next hid hgiven (fun launch hlaunch => ?_) (fun row hrow => Or.inl (hinserted ▸ hrow)) ?_
  · rcases hplanned with hended | hsame
    · rw [hended] at hlaunch
      exact absurd hlaunch List.not_mem_nil
    · exact hsame ▸ hlaunch
  · intro hnot
    refine ⟨hopen, fun other hother => ?_⟩
    rw [Covers, hinserted, hid, hplanned.resolve_left hnot]
    exact hother

/-- What is decided on what has been read is launches of steps. -/
theorem Faithful.decide {wf found : WorkflowRow} {rows : List TaskRow} {c : Collected}
    (h : call.Faithful w) (hpc : call.pc = .getEffects wf rows [] c)
    (hinserted : call.inserted = [])
    (hfind : w.findWorkflow call.workflowId = some found) (hsame : found.steps = wf.steps) :
    (call.goto (decision wf rows c)).Faithful w where
  given := fun wf' rows' left' c' hpc' => by
    simp only [decision, goto] at hpc'
    split_ifs at hpc'
  planned := by
    intro launch hlaunch
    have hplan : some launch ∈ c.plan wf.steps (c.namesIn rows .succeeded) := by
      simp only [goto, decision] at hlaunch
      split_ifs at hlaunch with hdead hall
      · exact absurd hlaunch List.not_mem_nil
      · exact absurd hlaunch List.not_mem_nil
      · exact hlaunch
    obtain ⟨step, hready, hnew, ⟨-, hnone⟩ | ⟨launches, hexpand, other, hother, heq⟩⟩ :=
      Collected.mem_plan.mp hplan
    · exact absurd hnone (by simp)
    · obtain rfl := Option.some.inj heq
      obtain ⟨hstep, -, hdeps⟩ := mem_getReadySteps.mp hready
      obtain ⟨rfl, -⟩ := (WorkflowStep.expand_names hexpand).1 launch hother
      refine ⟨found, launches, hfind, hsame ▸ hstep, ⟨c.results, fun dep hdep => ?_, hexpand⟩,
        hother, fun sibling hsibling => Or.inl ?_⟩
      · exact h.given wf rows [] c hpc dep (Or.inl (Collected.mem_namesIn.mp (hdeps dep hdep)).2)
      · have hmem : some sibling ∈ c.plan wf.steps (c.namesIn rows .succeeded) :=
          Collected.mem_plan.mpr
            ⟨launch.step, hready, hnew, Or.inr ⟨launches, hexpand, sibling, hsibling, rfl⟩⟩
        simp only [goto, decision] at hlaunch ⊢
        split_ifs at hlaunch ⊢ with hdead hall
        · exact absurd hlaunch List.not_mem_nil
        · exact absurd hlaunch List.not_mem_nil
        · exact hmem
  inserted := fun row hrow => absurd (hinserted ▸ hrow) List.not_mem_nil

end AdvanceCall

/-! ### Every interleaving -/

namespace Calls

variable {s s' : Calls} {i : ℕ} {call call' : AdvanceCall} {w' : World}

/-- Every task is one of those that a step expands to, and with it are all others of them. -/
structure Faithful (s : Calls) : Prop where
  calls : ∀ call ∈ s.calls, call.Faithful s.world
  rows : ∀ row ∈ s.world.stores.db.tasks, ∃ workflowId launch, row.Realizes workflowId launch ∧
    s.world.Prescribes workflowId launch (s.world.Realized workflowId)
  evidenced : s.world.Evidenced

theorem faithful_empty : Faithful .empty where
  calls := fun _ hcall => absurd hcall List.not_mem_nil
  rows := fun _ hrow => absurd hrow List.not_mem_nil
  evidenced := fun _ hrow => absurd hrow List.not_mem_nil

/-- Progress on a task: what it does to the effects. -/
theorem effects_of_isProgress {a : Act} (hstep : s.step a = some s') (hact : a.isProgress = true)
    (hdistinct : s.Distinct) :
    s.world.stores.db.effects <+: s'.world.stores.db.effects ∧
      ∀ row ∈ s'.world.stores.db.tasks, row.state = .succeeded → row ∈ s.world.stores.db.tasks ∨
        s'.world.stores.db.HasEffect (TaskEnvelope.keyOr row.dedupKey row.id) := by
  cases a with
  | lease taskId =>
    obtain ⟨w, hw, rfl⟩ := Option.map_eq_some_iff.mp hstep
    exact World.effects_of_progress hw (Or.inl ⟨taskId, rfl⟩) hdistinct.rows
  | succeed taskId fence result =>
    obtain ⟨w, hw, rfl⟩ := Option.map_eq_some_iff.mp hstep
    exact World.effects_of_progress hw (Or.inr (Or.inl ⟨taskId, fence, result, rfl⟩))
      hdistinct.rows
  | die taskId =>
    obtain ⟨w, hw, rfl⟩ := Option.map_eq_some_iff.mp hstep
    exact World.effects_of_progress hw (Or.inr (Or.inr ⟨taskId, rfl⟩)) hdistinct.rows
  | create | begin | call | deliver | adopt => exact absurd hact (by simp [Act.isProgress])

namespace Faithful

/-- A step after which every task is one that was there, up to its state and attempt, or one that
a call has inserted with all others of its step. -/
theorem frame (h : s.Faithful) (hgrows : s.world.Grows w')
    (hrows : ∀ row ∈ w'.stores.db.tasks,
      (∃ old ∈ s.world.stores.db.tasks, old.core = row.core) ∨
        ∃ workflowId launch, row.Realizes workflowId launch ∧
          w'.Prescribes workflowId launch (w'.Realized workflowId))
    (hevidenced : w'.Evidenced) {calls : List AdvanceCall}
    (hcalls : ∀ call ∈ calls, call.Faithful w') : Faithful ⟨w', calls⟩ where
  calls := hcalls
  rows := by
    intro row hrow
    rcases hrows row hrow with ⟨old, hold, hcore⟩ | hnew
    · obtain ⟨workflowId, launch, hrealizes, hprescribes⟩ := h.rows old hold
      exact ⟨workflowId, launch, hrealizes.of_core hcore.symm,
        (hprescribes.mono hgrows).imp fun other hother => hother.mono hgrows⟩
    · exact hnew
  evidenced := hevidenced

/-- A step that writes nothing into the tables but the state of a workflow. -/
theorem of_db_eq (h : s.Faithful) (hsteps : s.world.KeepsSteps s'.world)
    (hdb : s'.world.stores.db = s.world.stores.db)
    (hcalls : ∀ call ∈ s'.calls, call.Faithful s.world) : s'.Faithful := by
  have hgrows : s.world.Grows s'.world :=
    .of_appended hsteps (hdb ▸ List.prefix_refl _) (hdb ▸ rfl)
  refine h.frame hgrows (fun row hrow => Or.inl ⟨row, hdb ▸ hrow, rfl⟩) ?_
    fun call hcall => (hcalls call hcall).mono hgrows
  intro row hrow hstate
  rw [hdb] at hrow ⊢
  exact h.evidenced row hrow hstate

/-- Such a step of one call. -/
theorem set (h : s.Faithful) (hsteps : s.world.KeepsSteps w')
    (hdb : w'.stores.db = s.world.stores.db) (hnext : call'.Faithful s.world) :
    Faithful ⟨w', s.calls.set i call'⟩ :=
  h.of_db_eq hsteps hdb (Indexed.forall_mem_set h.calls hnext)

/-- The rows of a call are committed, and with each of them all others of its step. -/
theorem commit (h : s.Faithful) (hcall : s.calls[i]? = some call) {wf : WorkflowRow}
    (hpc : call.pc = .launch wf []) :
    Faithful ⟨{ s.world with stores := { s.world.stores with
        db := { s.world.stores.db with tasks := s.world.stores.db.tasks ++ call.inserted } } },
      s.calls.set i (call.goto (.ended true))⟩ := by
  have hmine := h.calls call (List.mem_of_getElem? hcall)
  have hgrows : s.world.Grows { s.world with stores := { s.world.stores with
      db := { s.world.stores.db with tasks := s.world.stores.db.tasks ++ call.inserted } } } :=
    .of_appended (.of_workflows_eq rfl) (List.prefix_append _ _) rfl
  refine h.frame hgrows (fun row hrow => ?_) ?_ ?_
  · rcases List.mem_append.mp hrow with hold | hnew
    · exact Or.inl ⟨row, hold, rfl⟩
    · obtain ⟨-, launch, hrealizes, hprescribes⟩ := hmine.inserted row hnew
      refine Or.inr ⟨call.workflowId, launch, hrealizes, (hprescribes.mono hgrows).imp ?_⟩
      intro other hother
      -- nothing is left to create, so the call has created it
      rcases hother (by simp [hpc]) with hplanned | ⟨made, hmade, hreal⟩
      · rw [hpc] at hplanned
        exact absurd hplanned List.not_mem_nil
      · exact ⟨made, List.mem_append_right _ hmade, hreal⟩
  · intro row hrow hstate
    rcases List.mem_append.mp hrow with hold | hnew
    · exact h.evidenced row hold hstate
    · exact absurd hstate (hmine.inserted row hnew).1
  · have hnext : (call.goto (.ended true)).Faithful s.world :=
      hmine.stay rfl rfl (fun _ _ _ _ hpc' => absurd hpc' (by simp [AdvanceCall.goto]))
        (by simp [hpc]) (Or.inr (by simp [AdvanceCall.goto, hpc, AdvancePc.planned]))
    exact Indexed.forall_mem_set (fun other hother => (h.calls other hother).mono hgrows)
      (hnext.mono hgrows)

/-- One statement of one call. -/
theorem answer (h : s.Faithful) (hinv : s.Inv) (hjustified : s.Justified)
    (hcall : s.calls[i]? = some call) (hmove : call.Move s.world s.waiting w' call') :
    Faithful ⟨w', s.calls.set i call'⟩ := by
  have hmem := List.mem_of_getElem? hcall
  have hmine := h.calls call hmem
  have hsound := hinv.calls call hmem
  have hsame : s.world.KeepsSteps s.world := .of_workflows_eq rfl
  cases hmove with
  | found wf hpc =>
    exact h.set hsame rfl (hmine.stay rfl rfl (by simp [AdvanceCall.goto]) (by simp [hpc])
      (Or.inr (by simp [AdvanceCall.goto, hpc, AdvancePc.planned])))
  | read wf rows hpc hperm =>
    refine h.set hsame rfl (hmine.stay rfl rfl (fun wf' rows' left' c' hpc' => ?_) (by simp [hpc])
      (Or.inr (by simp [AdvanceCall.goto, hpc, AdvancePc.planned])))
    -- nothing is filed yet
    obtain ⟨-, -, -, rfl⟩ := AdvancePc.getEffects.inj hpc'
    exact fun name hname => by simp at hname
  | collected wf rows row left c hpc =>
    refine h.set hsame rfl (hmine.stay rfl rfl (fun wf' rows' left' c' hpc' => ?_) (by simp [hpc])
      (Or.inr (by simp [AdvanceCall.goto, hpc, AdvancePc.planned])))
    obtain ⟨-, -, -, rfl⟩ := AdvancePc.getEffects.inj hpc'
    have hinformed := hjustified.calls call hmem
    rw [hpc] at hinformed
    obtain ⟨hleft, hended, -⟩ := hinformed
    exact (hmine.given wf rows (row :: left) c hpc).add h.evidenced
      fun hstate => hended row (hleft List.mem_cons_self) (Or.inl hstate)
  | decided wf rows c hpc =>
    obtain ⟨-, found, hfind, hsteps⟩ := hsound.workflow wf (by rw [hpc]; rfl)
    exact h.set hsame rfl
      (hmine.decide hpc (hsound.early (by rw [hpc]; rfl)).1 hfind hsteps)
  | finished wf state hpc =>
    exact h.set (s.world.keepsSteps_setWorkflowState wf.id state) rfl
      (hmine.stay rfl rfl (by simp [AdvanceCall.goto]) (by simp [hpc])
        (Or.inr (by simp [AdvanceCall.goto, hpc, AdvancePc.planned])))
  | committed wf hpc => exact h.commit hcall hpc
  | inserted wf launch rest taskId n now hpc hn hinsert hwaiting =>
    have hwf := (hsound.workflow wf (by rw [hpc]; rfl)).1
    have hrealizes : (launch.row wf.id taskId n).Realizes call.workflowId launch :=
      ⟨n, hn, hwf ▸ rfl⟩
    have hplanned : call.pc.planned = some launch :: rest := by rw [hpc]; rfl
    refine h.set hsame rfl (hmine.next rfl (by simp) (fun other hother => ?_)
      (Indexed.forall_mem_append_singleton (fun row hrow => Or.inl hrow) (Or.inr ?_))
      fun _ => ⟨by simp [hpc], fun other hother => ?_⟩)
    · rw [hplanned]
      exact List.mem_cons_of_mem _ hother
    · exact ⟨by simp [Launch.row], launch, hplanned ▸ List.mem_cons_self, hrealizes⟩
    · -- the launch that was to come is there now
      rcases hother with hto | ⟨row, hrow, hreal⟩
      · rw [hplanned] at hto
        rcases List.mem_cons.mp hto with heq | hrest
        · obtain rfl := Option.some.inj heq
          exact Or.inr ⟨_, List.mem_append_right _ (List.mem_singleton_self _), hrealizes⟩
        · exact Or.inl hrest
      · exact Or.inr ⟨row, List.mem_append_left _ hrow, hreal⟩
  | published wf envelope rest hpc =>
    exact h.set (.of_workflows_eq rfl) rfl (hmine.stay rfl rfl (by simp) (by simp [hpc])
      (Or.inr (by simp [hpc, AdvancePc.planned])))
  | lost wf envelope rest hpc =>
    exact h.set (.of_workflows_eq rfl) rfl
      (hmine.stay rfl rfl (by simp) (by simp [hpc]) (Or.inl rfl))
  | aborted hopen =>
    refine h.set hsame rfl
      (hmine.stay rfl rfl (by simp [AdvanceCall.goto]) (fun hended => ?_) (Or.inl rfl))
    simp [AdvanceCall.isOpen, hended] at hopen

theorem step {a : Act} (h : s.Faithful) (hinv : s.Inv) (hdistinct : s.Distinct)
    (hjustified : s.Justified) (hstep : s.step a = some s') : s'.Faithful := by
  have hkeeps := (moves_of_step hstep).keepsEnded hdistinct
  cases moves_of_step hstep with
  | refused => exact h
  | created => exact h.of_db_eq (s.world.keepsSteps_withWorkflow _) rfl h.calls
  | began =>
    refine h.of_db_eq (.of_workflows_eq rfl) rfl
      (Indexed.forall_mem_append_singleton h.calls ⟨by simp, fun _ hlaunch => ?_, fun _ hrow => ?_⟩)
    · exact absurd hlaunch List.not_mem_nil
    · exact absurd hrow List.not_mem_nil
  | answered hcall hanswer =>
    exact h.answer hinv hjustified hcall (AdvanceCall.move_of_answer hanswer)
  | delivered | adopted => exact h.of_db_eq (.of_workflows_eq rfl) rfl h.calls
  | progressed hact hprogress =>
    obtain ⟨heffects, hnew⟩ := effects_of_isProgress hstep hact hdistinct
    obtain ⟨hworkflows, taskId, state, attempt, found, -, -, htasks⟩ := hprogress
    have hgrows : s.world.Grows _ :=
      { ended := hkeeps
        steps := .of_workflows_eq hworkflows
        effects := heffects
        cores := fun row hrow => ⟨_, htasks ▸ List.mem_map_of_mem hrow, by simp⟩ }
    refine h.frame hgrows (fun row hrow => Or.inl ?_) (fun row hrow hstate => ?_)
      fun call hcall => (h.calls call hcall).mono hgrows
    · obtain ⟨old, hold, rfl⟩ := List.mem_map.mp (htasks ▸ hrow)
      exact ⟨old, hold, by simp⟩
    · rcases hnew row hrow hstate with hold | heffect
      · exact (h.evidenced row hold hstate).mono heffects
      · exact heffect

end Faithful

theorem faithful_of_reaches (h : Reaches Calls.step .empty s) : s.Faithful :=
  h.invariant_along (I := Faithful) faithful_empty fun _ _ _ hreach hfaithful _ hstep =>
    hfaithful.step (inv_of_reaches hreach) (distinct_of_reaches hreach)
      (justified_of_reaches hreach) hstep

/-- A step that lists something, and one that fans out over it. -/
def listAndFan : List WorkflowStep :=
  [⟨"a", "f", none, [], none, .absent⟩, ⟨"b", "g", none, ["a"], some "xs", .absent⟩]

/-- The task of the first step succeeds; then one call comes to the end, and another dies between
the siblings that it makes of the second. -/
def fanRun : List Act :=
  let row : TaskRow :=
    { Launch.row ⟨⟨"a", "f", none, [], none, .absent⟩, "a", .obj []⟩ ⟨1⟩ ⟨2⟩ 5 with
      state := .succeeded, attempt := 1 }
  let answers (i n : ℕ) : List Act := List.replicate n (.call i [] ⟨0⟩ (.ok 0 0))
  let reads (i : ℕ) : List Act :=
    [.begin ⟨1⟩, .call i [] ⟨0⟩ (.ok 0 0), .call i [row] ⟨0⟩ (.ok 0 0)] ++ answers i 2
  [.create ⟨1⟩ "w" listAndFan ["a", "b"], .begin ⟨1⟩] ++ answers 0 3 ++
    [.call 0 [] ⟨2⟩ (.ok 0 0)] ++ answers 0 2 ++
    [.lease ⟨2⟩, .succeed ⟨2⟩ 1 (some (.obj [("xs", .arr [.num 7, .num 8])]))] ++
    reads 1 ++ reads 2 ++
    [.call 1 [] ⟨3⟩ (.ok 0 0), .call 2 [] ⟨5⟩ (.ok 0 0)] ++ answers 1 1 ++ answers 2 1 ++
    [.call 2 [] ⟨0⟩ .crash, .call 1 [] ⟨4⟩ (.ok 0 0)] ++ answers 1 2

end Calls

end Dtq
