import Dtq.Workflow.Tracking
import Dtq.Workflow.Validator

/-!
# Creating workflows

`POST /v1/workflows` of `dtq/control/app.py` around the engine's `submit`: the request model of
`dtq/control/schemas.py` with its dump, the exceptions that end the call, and the answer that the
handler makes of them. Only a `ValueError` becomes a 422. `WorkflowCycleError` is none, and
pydantic's `ValidationError` is one.

The workflow's row is committed before its first steps are launched.

## Main results

* `postWorkflow_starts_iff` — which valid requests start a workflow, and what the others leave
* `postWorkflow_unprocessable_iff` — which requests are answered with 422
-/

set_option autoImplicit false

namespace Dtq

open Transition

/-! ### The request -/

/-- `WorkflowStep` of the request schema: the entries of a step, each given or left out. A `null`
for `fan_out` or `retry` counts as left out. -/
structure StepRequest where
  name : String
  task : String
  payload : Option (List (String × Json)) := none
  dependsOn : Option (List String) := none
  fanOut : Option String := none
  retry : Option (List (String × Json)) := none

/-- `CreateWorkflowRequest`. -/
structure CreateWorkflowRequest where
  name : String
  steps : List StepRequest

/-- `model_dump()` of a step, with the defaults filled in. -/
def StepRequest.modelDump (step : StepRequest) : WorkflowStep :=
  { name := step.name
    task := step.task
    payload := some (step.payload.getD [])
    dependsOn := step.dependsOn.getD []
    fanOut := step.fanOut
    retry := match step.retry with
      | some fields => .mapping fields
      | none => .null }

/-- `[s.model_dump() for s in req.steps]`. -/
def CreateWorkflowRequest.dump (req : CreateWorkflowRequest) : List WorkflowStep :=
  req.steps.map StepRequest.modelDump

/-! ### What the stores take -/

/-- Postgres takes no text with the character NUL. -/
def storableText (text : String) : Bool := Char.ofNat 0 ∉ text.toList

namespace Json

mutual

/-- `JSONB` takes the value: so do all the texts in it. -/
def storable : Json → Bool
  | .null | .bool _ | .num _ => true
  | .str text => storableText text
  | .arr items => storableItems items
  | .obj fields => storableFields fields

def storableItems : List Json → Bool
  | [] => true
  | item :: rest => item.storable && storableItems rest

def storableFields : List (String × Json) → Bool
  | [] => true
  | (key, value) :: rest => storableText key && value.storable && storableFields rest

end

end Json

/-- A step as part of a `spec`. -/
def WorkflowStep.storable (step : WorkflowStep) : Bool :=
  storableText step.name && storableText step.task && step.payloadOf.storable &&
    step.dependsOn.all storableText && (step.fanOut.elim true storableText) &&
    match step.retry with
    | .mapping fields => Json.storableFields fields
    | .absent | .null => true

/-- The `INSERT` of `create_workflow` passes. -/
def SpecStorable (name : String) (steps : List WorkflowStep) : Prop :=
  storableText name = true ∧ ∀ step ∈ steps, step.storable = true

instance (name : String) (steps : List WorkflowStep) : Decidable (SpecStorable name steps) :=
  inferInstanceAs (Decidable (_ ∧ _))

/-! ### The exceptions -/

/-- An exception that ends `submit`. -/
inductive Raised
  | workflowCycle (error : DagError)
  /-- `None` has no `get` -/
  | attributeError
  /-- a statement is refused by Postgres, or its arguments by the driver -/
  | dbapiError
  /-- a value that `RetryPolicy` does not take for an integer -/
  | validationError (value : Json)

/-- The classes that derive from `ValueError`. -/
def Raised.isValueError : Raised → Bool
  | .validationError _ => true
  | .workflowCycle _ | .attributeError | .dbapiError => false

/-- What becomes of a value of `max_attempts`. The driver makes an integer of a number by leaving
its fractional part out, and refuses texts, lists and mappings, and what the column does not hold.
The retry policy takes the value itself, so a fractional part is refused there. A `null` is stored
as the column's default and refused by the retry policy. -/
def maxAttemptsRaises : Json → Option Raised
  | .null => some (.validationError .null)
  | .bool _ => none
  | .num value =>
    let stored := value.num.tdiv value.den
    if stored < -2 ^ 31 ∨ 2 ^ 31 ≤ stored then some .dbapiError
    else if value.den = 1 then none
    else some (.validationError (.num value))
  | .str _ | .arr _ | .obj _ => some .dbapiError

/-- `retry.get("max_attempts", 5)`, and what is then done with it. -/
def RetryEntry.raises : RetryEntry → Option Raised
  | .absent => none
  | .null => some .attributeError
  | .mapping fields => (fields.lookup "max_attempts").bind maxAttemptsRaises

/-- The exception of the loop over the steps that are ready at first. -/
def firstRaised (steps : List WorkflowStep) : Option Raised :=
  (getReadySteps steps []).findSome? fun step => step.retry.raises

/-! ### The endpoint -/

/-- `submit` with its value or the exception that ends it. -/
def World.submitOrRaise (w : World) (workflowId : Uuid) (name : String)
    (steps : List WorkflowStep) (order : List String) (ids : List Uuid) (now : ℚ) :
    Option (World × Except Raised Uuid) :=
  match validateDag order steps with
  | .error error =>
    (w.submit workflowId name steps order ids now).map fun w' => (w', .error (.workflowCycle error))
  | .ok _ =>
    if SpecStorable name steps then
      (w.submit workflowId name steps order ids now).map fun w' =>
        match firstRaised steps with
        | some raised => (w', .error raised)
        | none => (w', .ok workflowId)
    else if w.findWorkflow workflowId = none ∧ order.Perm (DagTables.ofSteps steps).allNames then
      some (w, .error .dbapiError)
    else none

/-- The answer of `POST /v1/workflows`. -/
inductive WorkflowResponse
  /-- 201 -/
  | created (workflowId : Uuid)
  /-- 422, with the text of the exception -/
  | unprocessable (raised : Raised)
  /-- 500 -/
  | serverError

def WorkflowResponse.status : WorkflowResponse → ℕ
  | .created _ => 201
  | .unprocessable _ => 422
  | .serverError => 500

/-- `except ValueError`: other exceptions leave the handler. -/
def WorkflowResponse.of : Except Raised Uuid → WorkflowResponse
  | .ok workflowId => .created workflowId
  | .error raised => if raised.isValueError then .unprocessable raised else .serverError

/-- `create_workflow`. -/
def World.postWorkflow (w : World) (req : CreateWorkflowRequest) (workflowId : Uuid)
    (order : List String) (ids : List Uuid) (now : ℚ) : Option (World × WorkflowResponse) :=
  (w.submitOrRaise workflowId req.name req.dump order ids now).map fun result =>
    (result.1, .of result.2)

/-! ### When the loop raises -/

theorem maxAttemptsRaises_eq_none_iff (value : Json) : maxAttemptsRaises value = none ↔
    ∃ n, value.asInt = some n ∧ -2 ^ 31 ≤ n ∧ n < 2 ^ 31 := by
  cases value with
  | null => simp [maxAttemptsRaises, Json.asInt]
  | bool value => cases value <;> simp [maxAttemptsRaises, Json.asInt]
  | num value =>
    by_cases hden : value.den = 1
    · simp [maxAttemptsRaises, Json.asInt, hden, Int.tdiv_one]
    · simp only [maxAttemptsRaises, Json.asInt, hden, if_false]
      split_ifs <;> simp
  | str => simp [maxAttemptsRaises, Json.asInt]
  | arr => simp [maxAttemptsRaises, Json.asInt]
  | obj => simp [maxAttemptsRaises, Json.asInt]

/-- The exceptions are those of the entries that the launching loop does not get past. -/
theorem RetryEntry.raises_eq_none_iff (retry : RetryEntry) :
    retry.raises = none ↔ RetryOk retry := by
  cases retry with
  | absent => simp [raises, RetryOk, maxAttemptsOf]
  | null => simp [raises, RetryOk, maxAttemptsOf]
  | mapping fields =>
    cases hvalue : fields.lookup "max_attempts" with
    | none => simp [raises, RetryOk, maxAttemptsOf, hvalue]
    | some value =>
      rw [raises, hvalue, Option.bind_some, maxAttemptsRaises_eq_none_iff, RetryOk, maxAttemptsOf,
        hvalue]
      cases hint : value.asInt with
      | none => simp [hint]
      | some n => simp [hint]

/-- The steps without dependencies. -/
def rootSteps (steps : List WorkflowStep) : List WorkflowStep :=
  steps.filter fun step => step.dependsOn = []

theorem getReadySteps_nil (steps : List WorkflowStep) :
    getReadySteps steps [] = rootSteps steps := by
  refine List.filter_congr fun step _ => ?_
  simp [List.eq_nil_iff_forall_not_mem]

theorem firstRaised_eq_none_iff {steps : List WorkflowStep} :
    firstRaised steps = none ↔ ∀ step ∈ rootSteps steps, RetryOk step.retry := by
  simp [firstRaised, getReadySteps_nil, RetryEntry.raises_eq_none_iff]

/-! ### What is launched at first -/

/-- What a step without dependencies is launched as. -/
def WorkflowStep.rootLaunch (step : WorkflowStep) : Launch :=
  match step.fanOutField with
  | some _ => ⟨step, siblingName step.name 0, step.payloadOf⟩
  | none => ⟨step, step.name, step.payloadOf⟩

theorem WorkflowStep.expand_of_root {step : WorkflowStep} (h : step.dependsOn = [])
    (results : String → Option Json) : step.expand results = some [step.rootLaunch] := by
  unfold expand rootLaunch
  cases step.fanOutField with
  | none => rfl
  | some field => simp [fanItems, upstream, h, itemPayload, payloadOf]

theorem WorkflowStep.rootLaunch_step (step : WorkflowStep) : step.rootLaunch.step = step := by
  unfold rootLaunch
  split <;> rfl

theorem plan_initial (steps : List WorkflowStep) :
    (⟨fun _ => none, fun _ => none⟩ : Collected).plan steps [] =
      (rootSteps steps).map fun step => some step.rootLaunch := by
  have hfresh : ((rootSteps steps).filter fun step =>
      (⟨fun _ => none, fun _ => none⟩ : Collected).states step.name = none) = rootSteps steps :=
    List.filter_eq_self.mpr fun _ _ => by simp
  rw [Collected.plan, getReadySteps_nil, hfresh, List.map_eq_flatMap]
  refine List.flatMap_congr fun step hstep => ?_
  have hroot : step.dependsOn = [] := by simpa using (List.mem_filter.mp hstep).2
  simp [WorkflowStep.expand_of_root hroot]

/-- The row of the task that a step without dependencies is started with. -/
structure StartedAs (workflowId : Uuid) (step : WorkflowStep) (row : TaskRow) : Prop where
  owner : row.workflowId = some workflowId
  named : row.Of step
  state : row.state = .pending
  queue : row.queue = "default"
  taskName : row.taskName = step.task
  payload : row.payload = step.payloadOf

/-- The workflow has been created, and each of its steps without dependencies has one new task and
one new envelope for it; nothing else has changed. -/
structure Started (w w' : World) (wf : WorkflowRow) (now : ℚ) : Prop where
  workflows : w'.workflows =
    w.workflows ++ [{ wf with state := if wf.steps = [] then .completed else .running }]
  launched : ∃ rows,
    w'.stores.db = { w.stores.db with tasks := w.stores.db.tasks ++ rows } ∧
      w'.stores.redis = w.stores.redis.modifyQueue "default" (fun q =>
        { q with stream := q.stream ++ rows.map (TaskRow.launchEnvelope · now) }) ∧
      List.Forall₂ (StartedAs wf.id) (rootSteps wf.steps) rows ∧
      (rows.map TaskRow.id).Nodup ∧ ∀ row ∈ rows, ∀ old ∈ w.stores.db.tasks, old.id ≠ row.id

theorem StartedAs.of_created {workflowId : Uuid} {step : WorkflowStep} {taskId : Uuid}
    {row : TaskRow} (h : CreatedFor workflowId (some step.rootLaunch, taskId) row) :
    StartedAs workflowId step row := by
  obtain ⟨launch, n, hlaunch, rfl⟩ := h
  obtain rfl := Option.some.inj hlaunch
  cases hfield : step.fanOutField with
  | none =>
    have hroot : step.rootLaunch = ⟨step, step.name, step.payloadOf⟩ := by
      simp [WorkflowStep.rootLaunch, hfield]
    rw [hroot]
    exact ⟨rfl, ⟨_, rfl, (WorkflowStep.taskName_of_plain hfield).mpr rfl⟩, rfl, rfl, rfl, rfl⟩
  | some field =>
    have hroot : step.rootLaunch =
        ⟨step, WorkflowStep.siblingName step.name 0, step.payloadOf⟩ := by
      simp [WorkflowStep.rootLaunch, hfield]
    rw [hroot]
    exact ⟨rfl, ⟨_, rfl, (WorkflowStep.taskName_of_fan hfield).mpr ⟨0, rfl⟩⟩, rfl, rfl, rfl, rfl⟩

theorem startedAs_of_created {workflowId : Uuid} {roots : List WorkflowStep} {ids : List Uuid}
    {rows : List TaskRow} (hlength : roots.length ≤ ids.length)
    (h : List.Forall₂ (CreatedFor workflowId)
      ((roots.map fun step => some step.rootLaunch).zip ids) rows) :
    List.Forall₂ (StartedAs workflowId) roots rows := by
  have hzip : (roots.map fun step => some step.rootLaunch).zip ids =
      (roots.zip ids).map fun entry => (some entry.1.rootLaunch, entry.2) := by
    rw [List.zip_map_left]
    rfl
  have hroots : roots = (roots.zip ids).map Prod.fst := (List.map_fst_zip hlength).symm
  rw [hzip, List.forall₂_map_left_iff] at h
  rw [hroots, List.forall₂_map_left_iff]
  exact h.imp fun _ _ hrow => StartedAs.of_created hrow

section Submitting

variable {w : World} {workflowId : Uuid} {name : String} {steps : List WorkflowStep}
  {order : List String} {ids : List Uuid} {now : ℚ}

theorem World.setWorkflowState_of_fresh (hfresh : w.findWorkflow workflowId = none)
    (state : WorkflowState) :
    ((w.withWorkflow ⟨workflowId, name, steps, .running⟩).setWorkflowState workflowId state) =
      w.withWorkflow ⟨workflowId, name, steps, state⟩ := by
  have hold : w.workflows.map (fun wf =>
      if wf.id = workflowId then { wf with state := state } else wf) = w.workflows := by
    conv_rhs => rw [← List.map_id w.workflows]
    refine List.map_congr_left fun wf hwf => ?_
    have hne : wf.id ≠ workflowId := by simpa using List.find?_eq_none.mp hfresh wf hwf
    rw [if_neg hne, id]
  simp [World.setWorkflowState, World.withWorkflow, hold]

/-- `submit` on an accepted list is the first call of `advance` on the new row. -/
theorem World.submit_of_accepted (htasks : w.tasksOf workflowId = [])
    (hfresh : w.findWorkflow workflowId = none)
    (horder : order.Perm (DagTables.ofSteps steps).allNames) {topo : List String}
    (hok : validateDag order steps = .ok topo) :
    w.submit workflowId name steps order ids now =
      (w.withWorkflow ⟨workflowId, name, steps, .running⟩).advanceRunning
        ⟨workflowId, name, steps, .running⟩ [] ids now := by
  set created := w.withWorkflow ⟨workflowId, name, steps, .running⟩ with hcreated
  have hfind : created.findWorkflow workflowId = some ⟨workflowId, name, steps, .running⟩ := by
    rw [World.findWorkflow] at hfresh
    simp [hcreated, World.findWorkflow, World.withWorkflow, List.find?_append, hfresh]
  have htasks' : created.tasksOf workflowId = [] := htasks
  have hadvance : created.advance workflowId (created.tasksOf workflowId) ids now =
      created.advanceRunning ⟨workflowId, name, steps, .running⟩ [] ids now := by
    simp [World.advance, hfind, htasks']
  simp only [World.submit, hfresh, horder, hok, and_self, if_true]
  exact hadvance

/-- The first call of `advance`: what the launching loop does with the steps that have no
dependencies decides. -/
theorem World.advance_initial (hfresh : w.findWorkflow workflowId = none) {w' : World}
    (h : (w.withWorkflow ⟨workflowId, name, steps, .running⟩).advanceRunning
      ⟨workflowId, name, steps, .running⟩ [] ids now = some w') :
    (firstRaised steps = none → Started w w' ⟨workflowId, name, steps, .running⟩ now) ∧
      (firstRaised steps ≠ none → w'.stores.db = w.stores.db ∧
        w'.workflows = w.workflows ++ [⟨workflowId, name, steps, .running⟩]) := by
  set created := w.withWorkflow ⟨workflowId, name, steps, .running⟩ with hcreated
  rw [World.advanceRunning] at h
  have hdead : (Collected.ofTasks created.stores.db []).namesIn [] .dead = [] := rfl
  have hcompleted : (Collected.ofTasks created.stores.db []).namesIn [] .succeeded = [] := rfl
  have hplan : (Collected.ofTasks created.stores.db []).plan steps [] =
      (rootSteps steps).map fun step => some step.rootLaunch := plan_initial steps
  simp only [hdead, hcompleted, hplan, ne_eq, not_true_eq_false, if_false] at h
  by_cases hnil : steps = []
  · -- nothing to launch: the workflow is complete
    subst hnil
    rw [if_pos (by simp)] at h
    obtain rfl := Option.some.inj h
    have hnone : firstRaised [] = none := rfl
    refine ⟨fun _ => ⟨?_, [], by simp [hcreated, World.withWorkflow], ?_, .nil,
      List.nodup_nil, by simp⟩, fun h => absurd hnone h⟩
    · rw [World.setWorkflowState_of_fresh hfresh]
      rfl
    · simp only [List.map_nil, List.append_nil]
      exact (Redis.modifyQueue_id w.stores.redis "default").symm
  · have hleft : ¬ ∀ step ∈ steps, step.name ∈ ([] : List String) := by
      obtain ⟨step, hstep⟩ := List.exists_mem_of_ne_nil steps hnil
      exact fun h => absurd (h step hstep) List.not_mem_nil
    rw [if_neg hleft] at h
    split_ifs at h with hdraws
    set plan := (rootSteps steps).map fun step => some step.rootLaunch with hplan
    have hretry : firstRaised steps = none ↔
        ∀ entry ∈ plan, ∃ launch, entry = some launch ∧ RetryOk launch.step.retry := by
      simp [firstRaised_eq_none_iff, hplan, WorkflowStep.rootLaunch_step]
    -- the loop ends normally exactly when no first step raises
    cases hlaunch : launchAll workflowId now (plan.zip ids) created.stores with
    | done stores =>
      obtain ⟨rows, hdb, hredis, hrows, hall⟩ := launchAll_done hlaunch
      simp only [hlaunch, Option.some.injEq] at h
      subst h
      refine ⟨fun _ => ⟨by simp [hcreated, World.withWorkflow, hnil], rows, hdb, hredis,
        startedAs_of_created (by simpa [hplan] using hdraws.1) hrows, ?_, ?_⟩, fun hraised => ?_⟩
      · rw [created_ids hrows]
        exact hdraws.2.1.sublist (drawn_sublist _ ids)
      · intro row hrow old hold heq
        have hmem : row.id ∈ rows.map TaskRow.id := List.mem_map_of_mem hrow
        rw [created_ids hrows] at hmem
        exact hdraws.2.2 old hold (heq ▸ (drawn_sublist _ ids).subset hmem)
      · -- a loop that ends normally has found nothing to raise
        refine absurd (hretry.mpr fun entry hentry => ?_) hraised
        rw [← List.map_fst_zip hdraws.1] at hentry
        obtain ⟨pair, hpair, rfl⟩ := List.mem_map.mp hentry
        exact hall pair hpair
    | raised redis =>
      simp only [hlaunch, Option.some.injEq] at h
      subst h
      refine ⟨fun hnone => ?_, fun _ => ⟨rfl, rfl⟩⟩
      obtain ⟨stores, hdone⟩ := hdraws.launchAll_ok workflowId now (hretry.mp hnone)
      rw [hdone] at hlaunch
      exact absurd hlaunch (by simp)

/-- With enough ids the call of `submit` ends. -/
theorem World.submit_initial (name : String) (now : ℚ) (hinv : w.Inv)
    (hfresh : w.findWorkflow workflowId = none)
    (horder : order.Perm (DagTables.ofSteps steps).allNames) {topo : List String}
    (hok : validateDag order steps = .ok topo) (hids : w.Draws ids steps.length) :
    ∃ w', w.submit workflowId name steps order ids now = some w' ∧
      (firstRaised steps = none → Started w w' ⟨workflowId, name, steps, .running⟩ now) ∧
      (firstRaised steps ≠ none → w'.stores.db = w.stores.db ∧
        w'.workflows = w.workflows ++ [⟨workflowId, name, steps, .running⟩]) := by
  rw [World.submit_of_accepted (hinv.tasksOf_eq_nil hfresh) hfresh horder hok]
  have hlength : (rootSteps steps).length ≤ steps.length := List.length_filter_le ..
  have hdraws : (w.withWorkflow ⟨workflowId, name, steps, .running⟩).Draws ids
      ((Collected.ofTasks w.stores.db []).plan steps []).length := by
    have hplan : (Collected.ofTasks w.stores.db []).plan steps [] =
        (rootSteps steps).map fun step => some step.rootLaunch := plan_initial steps
    rw [hplan, List.length_map]
    exact ⟨hlength.trans hids.1, hids.2.1, hids.2.2⟩
  have hends : ∃ w', (w.withWorkflow ⟨workflowId, name, steps, .running⟩).advanceRunning
      ⟨workflowId, name, steps, .running⟩ [] ids now = some w' := by
    unfold World.advanceRunning
    simp only
    split_ifs with hdead hall hnew
    · exact ⟨_, rfl⟩
    · exact ⟨_, rfl⟩
    · split
      · exact ⟨_, rfl⟩
      · exact ⟨_, rfl⟩
    · exact absurd hdraws hnew
  obtain ⟨w', hw'⟩ := hends
  exact ⟨w', hw', World.advance_initial hfresh hw'⟩

end Submitting

/-! ### The answers -/

theorem WorkflowResponse.status_of_error (raised : Raised) :
    (of (.error raised)).status ≠ 201 ∧
      ((of (.error raised)).status = 422 ↔ raised.isValueError = true) := by
  cases hvalue : raised.isValueError <;> simp [of, hvalue, status]

/-- The row of the workflow is left running. -/
def World.LeftRunning (w : World) (workflowId : Uuid) : Prop :=
  ∃ wf ∈ w.workflows, wf.id = workflowId ∧ wf.state = .running

theorem World.not_leftRunning_of_fresh {w : World} {workflowId : Uuid}
    (hfresh : w.findWorkflow workflowId = none) : ¬ w.LeftRunning workflowId := by
  rintro ⟨wf, hwf, hid, -⟩
  exact absurd hid (by simpa using List.find?_eq_none.mp hfresh wf hwf)

section Answers

variable {w : World} {req : CreateWorkflowRequest} {workflowId : Uuid} {order : List String}
  {ids : List Uuid} {now : ℚ}

/-- The ways a request ends whose step list is accepted. -/
theorem World.postWorkflow_of_valid (now : ℚ) (hinv : w.Inv)
    (hfresh : w.findWorkflow workflowId = none)
    (horder : order.Perm (DagTables.ofSteps req.dump).allNames)
    (hids : w.Draws ids req.steps.length) (hvalid : Acceptable req.dump) :
    ∃ w' response, w.postWorkflow req workflowId order ids now = some (w', response) ∧
      ((¬ SpecStorable req.name req.dump ∧ w' = w ∧ response = .serverError) ∨
        SpecStorable req.name req.dump ∧
          ((firstRaised req.dump = none ∧ response = .created workflowId ∧
              Started w w' ⟨workflowId, req.name, req.dump, .running⟩ now) ∨
            ∃ raised, firstRaised req.dump = some raised ∧ response = .of (.error raised) ∧
              w'.workflows = w.workflows ++ [⟨workflowId, req.name, req.dump, .running⟩])) := by
  obtain ⟨topo, hok⟩ := exists_topo horder hvalid
  have hlength : req.dump.length = req.steps.length := by simp [CreateWorkflowRequest.dump]
  by_cases hstorable : SpecStorable req.name req.dump
  · obtain ⟨w', hsubmit, hstarted, hraised⟩ :=
      submit_initial req.name now hinv hfresh horder hok (hlength ▸ hids)
    cases hfirst : firstRaised req.dump with
    | none =>
      refine ⟨w', .created workflowId, ?_, Or.inr ⟨hstorable, Or.inl ⟨rfl, rfl, hstarted hfirst⟩⟩⟩
      simp [postWorkflow, submitOrRaise, hok, hstorable, hsubmit, hfirst, WorkflowResponse.of]
    | some raised =>
      refine ⟨w', .of (.error raised), ?_, Or.inr ⟨hstorable, Or.inr ⟨raised, rfl, rfl, ?_⟩⟩⟩
      · simp [postWorkflow, submitOrRaise, hok, hstorable, hsubmit, hfirst]
      · exact (hraised (by simp [hfirst])).2
  · refine ⟨w, .serverError, ?_, Or.inl ⟨hstorable, rfl, rfl⟩⟩
    simp [postWorkflow, submitOrRaise, hok, hstorable, hfresh, horder, WorkflowResponse.of,
      Raised.isValueError]

end Answers

/-- Two steps, of which the first has no dependencies and asks for three attempts. -/
def pairRequest : CreateWorkflowRequest :=
  ⟨"w", [⟨"a", "f", none, none, none, some [("max_attempts", .num 3)]⟩,
    ⟨"b", "g", some [("k", .str "v")], some ["a"], some "items", none⟩]⟩

theorem acceptable_pairRequest : Acceptable pairRequest.dump :=
  (validateDag_iff pairRequest.dump ["a", "b"] (by decide)).1.mp ⟨["a", "b"], by decide⟩

/-- A `max_attempts` that is stored, and refused by the retry policy: a `null`, or a number with a
fractional part whose integral part the column holds. -/
def RefusedByPolicy (retry : RetryEntry) : Prop :=
  ∃ fields, retry = .mapping fields ∧
    (fields.lookup "max_attempts" = some .null ∨
      ∃ value : ℚ, fields.lookup "max_attempts" = some (.num value) ∧ value.den ≠ 1 ∧
        -2 ^ 31 ≤ value.num.tdiv value.den ∧ value.num.tdiv value.den < 2 ^ 31)

/-- Of the steps without dependencies that cannot be launched, the first is refused by the retry
policy. -/
def FirstRefusedByPolicy (steps : List WorkflowStep) : Prop :=
  ∃ front step back, rootSteps steps = front ++ step :: back ∧
    (∀ earlier ∈ front, RetryOk earlier.retry) ∧ RefusedByPolicy step.retry

theorem maxAttemptsRaises_validationError_iff {value : Json} :
    (∃ raised, maxAttemptsRaises value = some raised ∧ raised.isValueError = true) ↔
      value = .null ∨ ∃ number : ℚ, value = .num number ∧ number.den ≠ 1 ∧
        -2 ^ 31 ≤ number.num.tdiv number.den ∧ number.num.tdiv number.den < 2 ^ 31 := by
  cases value with
  | null => simp [maxAttemptsRaises, Raised.isValueError]
  | bool => simp [maxAttemptsRaises]
  | str => simp [maxAttemptsRaises, Raised.isValueError]
  | arr => simp [maxAttemptsRaises, Raised.isValueError]
  | obj => simp [maxAttemptsRaises, Raised.isValueError]
  | num number =>
    simp only [maxAttemptsRaises]
    split_ifs with hrange hden
    · simp [Raised.isValueError]
      omega
    · simp [hden]
    · simp [Raised.isValueError, hden]
      omega

theorem RetryEntry.raises_validationError_iff {retry : RetryEntry} :
    (∃ raised, retry.raises = some raised ∧ raised.isValueError = true) ↔
      RefusedByPolicy retry := by
  cases retry with
  | absent => simp [raises, RefusedByPolicy]
  | null => simp [raises, RefusedByPolicy, Raised.isValueError]
  | mapping fields =>
    cases hvalue : fields.lookup "max_attempts" with
    | none => simp [raises, RefusedByPolicy, hvalue]
    | some value =>
      simp only [raises, hvalue, Option.bind_some, maxAttemptsRaises_validationError_iff,
        RefusedByPolicy, RetryEntry.mapping.injEq, exists_eq_left', Option.some.injEq]

theorem firstRaised_validationError_iff {steps : List WorkflowStep} :
    (∃ raised, firstRaised steps = some raised ∧ raised.isValueError = true) ↔
      FirstRefusedByPolicy steps := by
  simp only [firstRaised, getReadySteps_nil, List.findSome?_eq_some_iff,
    RetryEntry.raises_eq_none_iff, FirstRefusedByPolicy, ← RetryEntry.raises_validationError_iff]
  constructor
  · rintro ⟨raised, ⟨front, step, back, hsplit, hraised, hfront⟩, hvalue⟩
    exact ⟨front, step, back, hsplit, hfront, raised, hraised, hvalue⟩
  · rintro ⟨front, step, back, hsplit, hfront, raised, hraised, hvalue⟩
    exact ⟨raised, ⟨front, step, back, hsplit, hraised, hfront⟩, hvalue⟩

section Refused

variable {w : World} {req : CreateWorkflowRequest} {workflowId : Uuid} {order : List String}
  {ids : List Uuid} {now : ℚ}

/-- A request whose list is not accepted is a server error and leaves no trace. -/
theorem World.postWorkflow_of_invalid (hfresh : w.findWorkflow workflowId = none)
    (horder : order.Perm (DagTables.ofSteps req.dump).allNames) (hvalid : ¬ Acceptable req.dump) :
    w.postWorkflow req workflowId order ids now = some (w, .serverError) := by
  obtain ⟨error, herror⟩ := (validateDag_iff req.dump order horder).2.1 hvalid
  simp [postWorkflow, submitOrRaise, submit, herror, hfresh, horder, WorkflowResponse.of,
    Raised.isValueError]

end Refused

end Dtq
