import Dtq.Worker.Executor
import Dtq.Workflow.Dag

/-!
# The workflow engine

`submit` and `advance` of `dtq/workflow/engine.py` as whole calls on the committed tables and on
Redis, with the progress that workers make on tasks in between.

`advance` reads the workflow's tasks, decides, and creates rows and publishes envelopes step by
step in one transaction. An exception on the way rolls the rows back; what has been published
stays. The order in which `SELECT` returns the tasks is not fixed, and matters when two of them
have the same step name: it is an argument, as are the values of `uuid4` and of the clock.
-/

set_option autoImplicit false

namespace Dtq

namespace Json

/-- Python's truth value. -/
def truthy : Json → Bool
  | .null => false
  | .bool value => value
  | .num value => value ≠ 0
  | .str value => value ≠ ""
  | .arr items => items ≠ []
  | .obj fields => fields ≠ []

/-- What iterating over the value yields: the items of a list, the keys of a mapping, the characters
of a text. Iterating over anything else is a `TypeError`. -/
def iterate : Json → Option (List Json)
  | .arr items => some items
  | .obj fields => some (fields.map fun entry => .str entry.1)
  | .str value => some (value.toList.map fun c => .str (String.singleton c))
  | .null | .bool _ | .num _ => none

/-- The value as Postgres and the envelope take it for an integer: an integral number, or a flag. -/
def asInt : Json → Option ℤ
  | .num value => if value.den = 1 then some value.num else none
  | .bool value => some (if value then 1 else 0)
  | .null | .str _ | .arr _ | .obj _ => none

end Json

/-- How `if field in value: value[field]` ends. -/
inductive Lookup
  | missing
  | found (value : Json)
  | typeError
deriving DecidableEq

/-- `if field in value: value[field]`. A list or a text may contain the field, but cannot be indexed
by it. -/
def lookupField (field : String) : Json → Lookup
  | .obj fields =>
    match fields.lookup field with
    | some value => .found value
    | none => .missing
  | .arr items => if .str field ∈ items then .typeError else .missing
  | .str value => if field.toList <:+: value.toList then .typeError else .missing
  | .null | .bool _ | .num _ => .typeError

/-! ### Steps -/

/-- `retry.get("max_attempts", 5)`, once it has been accepted as an integer. `none` stands for the
exception: a `null` entry has no `get`, and a value may be of another type. -/
def maxAttemptsOf : RetryEntry → Option ℤ
  | .absent => some 5
  | .null => none
  | .mapping fields =>
    match fields.lookup "max_attempts" with
    | some value => value.asInt
    | none => some 5

/-- One task that `advance` is about to create. -/
structure Launch where
  step : WorkflowStep
  stepName : String
  payload : Json

namespace WorkflowStep

/-- `if fan_out_field:` — a missing or empty field makes it a regular step. -/
def fanOutField (step : WorkflowStep) : Option String :=
  match step.fanOut with
  | some field => if field = "" then none else some field
  | none => none

/-- `step_spec.get("payload", {})`. -/
def payloadOf (step : WorkflowStep) : Json := .obj (step.payload.getD [])

/-- `f"{step_name}[{i}]"`. -/
def siblingName (name : String) (i : ℕ) : String := name ++ "[" ++ toString i ++ "]"

/-- `item if isinstance(item, dict) else {"item": item}`. -/
def itemPayload : Json → Json
  | .obj fields => .obj fields
  | item => .obj [("item", item)]

/-- The loop over `deps` that looks for the list to fan out, up to its `break`. -/
def upstream (results : String → Option Json) (field : String) : List String → Lookup
  | [] => .missing
  | dep :: rest =>
    match lookupField field ((results dep).getD (.obj [])) with
    | .missing => upstream results field rest
    | .found value => .found value
    | .typeError => .typeError

/-- The items a fan-out step is expanded over; `none` for an exception. -/
def fanItems (step : WorkflowStep) (results : String → Option Json) (field : String) :
    Option (List Json) :=
  match upstream results field step.dependsOn with
  | .missing => some [step.payloadOf]
  | .found value => if value.truthy then value.iterate else some [step.payloadOf]
  | .typeError => none

/-- The tasks a ready step is launched as; `none` for an exception. -/
def expand (step : WorkflowStep) (results : String → Option Json) : Option (List Launch) :=
  match step.fanOutField with
  | some field =>
    (step.fanItems results field).map fun items =>
      items.mapIdx fun i item => ⟨step, siblingName step.name i, itemPayload item⟩
  | none => some [⟨step, step.name, step.payloadOf⟩]

end WorkflowStep

namespace Launch

/-- The row that `create_task` inserts. -/
def row (launch : Launch) (workflowId taskId : Uuid) (maxAttempts : ℤ) : TaskRow :=
  { id := taskId
    queue := "default"
    taskName := launch.step.task
    payload := launch.payload
    state := .pending
    priority := 0
    maxAttempts := maxAttempts
    dedupKey := none
    runAt := none
    workflowId := some workflowId
    stepName := some launch.stepName }

/-- The envelope that is published for it. -/
def envelope (launch : Launch) (workflowId taskId : Uuid) (maxAttempts : ℤ) (now : ℚ) :
    TaskEnvelope :=
  { taskId := taskId
    queue := "default"
    taskName := launch.step.task
    payload := launch.payload
    maxAttempts := maxAttempts
    retryPolicy := { maxAttempts := maxAttempts }
    workflowId := some workflowId
    stepName := some launch.stepName
    createdAt := now }

end Launch

/-! ### What `advance` reads -/

/-- `if t.step_name:` — the name a task is filed under. -/
def TaskRow.filedUnder (row : TaskRow) : Option String :=
  match row.stepName with
  | some name => if name = "" then none else some name
  | none => none

/-- The dictionaries `step_states` and `step_results`. -/
structure Collected where
  states : String → Option TaskState
  results : String → Option Json

namespace Collected

/-- The truthy result of a succeeded task, from the effect committed for it. -/
def resultOf (db : Db) (row : TaskRow) : Option Json :=
  if row.state = .succeeded then
    match db.findEffect (TaskEnvelope.keyOr row.dedupKey row.id) with
    | some effect => effect.result.filter Json.truthy
    | none => none
  else none

/-- The body of the loop over the tasks. -/
def add (db : Db) (c : Collected) (row : TaskRow) : Collected :=
  match row.filedUnder with
  | some name =>
    { states := Function.update c.states name (some row.state)
      results := match resultOf db row with
        | some result => Function.update c.results name (some result)
        | none => c.results }
  | none => c

/-- Both dictionaries, from the tasks in the order they were returned. -/
def ofTasks (db : Db) (tasks : List TaskRow) : Collected :=
  tasks.foldl (add db) ⟨fun _ => none, fun _ => none⟩

/-- The names filed under a state: `completed_steps` and `dead_steps`. -/
def namesIn (c : Collected) (tasks : List TaskRow) (state : TaskState) : List String :=
  (tasks.filterMap TaskRow.filedUnder).filter fun name => c.states name = some state

/-- The tasks that the loop over the ready steps sets out to create. A `none` stands for an
exception raised there. -/
def plan (c : Collected) (steps : List WorkflowStep) (completed : List String) :
    List (Option Launch) :=
  ((getReadySteps steps completed).filter fun step => c.states step.name = none).flatMap
    fun step =>
      match step.expand c.results with
      | some launches => launches.map some
      | none => [none]

end Collected

/-! ### The calls -/

/-- A workflow's state. -/
inductive WorkflowState
  | running
  | completed
  | failed
deriving DecidableEq

/-- A row of `workflows`. -/
structure WorkflowRow where
  id : Uuid
  name : String
  steps : List WorkflowStep
  state : WorkflowState
deriving DecidableEq

/-- The stores and the `workflows` table. -/
structure World where
  stores : Stores
  workflows : List WorkflowRow

/-- How the loop that launches steps ends: with its rows to commit, or in an exception, with what it
had published by then. -/
inductive Launched
  | done (stores : Stores)
  | raised (redis : Redis)

/-- Create and publish the planned tasks one after another, each with the `uuid4` drawn for it. -/
def launchAll (workflowId : Uuid) (now : ℚ) : List (Option Launch × Uuid) → Stores → Launched
  | [], stores => .done stores
  | (none, _) :: _, stores => .raised stores.redis
  | (some launch, taskId) :: rest, stores =>
    match maxAttemptsOf launch.step.retry with
    | none => .raised stores.redis
    | some maxAttempts =>
      let row := launch.row workflowId taskId maxAttempts
      let envelope := launch.envelope workflowId taskId maxAttempts now
      if stores.db.Insertable row then
        launchAll workflowId now rest
          { redis := stores.redis.modifyQueue "default" fun q => q.publish envelope
            db := stores.db.insertTask row }
      else .raised stores.redis

/-- `get_tasks_for_workflow`, up to the order of the rows. -/
def Db.tasksOf (db : Db) (workflowId : Uuid) : List TaskRow :=
  db.tasks.filter fun row => row.workflowId = some workflowId

namespace World

/-- Empty stores, no workflow. -/
def empty : World := ⟨⟨.empty, .empty⟩, []⟩

/-- The tasks of a workflow. -/
def tasksOf (w : World) (workflowId : Uuid) : List TaskRow := w.stores.db.tasksOf workflowId

/-- `get_workflow`. -/
def findWorkflow (w : World) (workflowId : Uuid) : Option WorkflowRow :=
  w.workflows.find? fun wf => wf.id = workflowId

/-- `update_workflow_state`. -/
def setWorkflowState (w : World) (workflowId : Uuid) (state : WorkflowState) : World :=
  { w with workflows := w.workflows.map fun wf =>
      if wf.id = workflowId then { wf with state := state } else wf }

/-- The values `uuid4` gave are new ones, and enough. -/
def Draws (w : World) (ids : List Uuid) (n : ℕ) : Prop :=
  n ≤ ids.length ∧ ids.Nodup ∧ ∀ row ∈ w.stores.db.tasks, row.id ∉ ids

instance (w : World) (ids : List Uuid) (n : ℕ) : Decidable (w.Draws ids n) :=
  inferInstanceAs (Decidable (_ ∧ _ ∧ _))

/-- `advance` on a running workflow whose tasks were returned as `rows`. -/
def advanceRunning (w : World) (wf : WorkflowRow) (rows : List TaskRow) (ids : List Uuid)
    (now : ℚ) : Option World :=
  let c := Collected.ofTasks w.stores.db rows
  let completed := c.namesIn rows .succeeded
  if c.namesIn rows .dead ≠ [] then some (w.setWorkflowState wf.id .failed)
  else if ∀ step ∈ wf.steps, step.name ∈ completed then
    some (w.setWorkflowState wf.id .completed)
  else
    let plan := c.plan wf.steps completed
    if w.Draws ids plan.length then
      match launchAll wf.id now (plan.zip ids) w.stores with
      | .done stores => some { w with stores := stores }
      | .raised redis => some { w with stores := { w.stores with redis := redis } }
    else none

/-- `advance`. -/
def advance (w : World) (workflowId : Uuid) (rows : List TaskRow) (ids : List Uuid) (now : ℚ) :
    Option World :=
  match w.findWorkflow workflowId with
  | none => some w
  | some wf =>
    if wf.state ≠ .running then some w
    else if rows.Perm (w.tasksOf workflowId) then w.advanceRunning wf rows ids now
    else none

/-- `submit`, with the `uuid4` it drew for the workflow. The row is committed before the call of
`advance`. -/
def submit (w : World) (workflowId : Uuid) (name : String) (steps : List WorkflowStep)
    (order : List String) (ids : List Uuid) (now : ℚ) : Option World :=
  if w.findWorkflow workflowId = none ∧ order.Perm (DagTables.ofSteps steps).allNames then
    match validateDag order steps with
    | .error _ => some w
    | .ok _ =>
      let created : World :=
        { w with workflows := w.workflows ++ [⟨workflowId, name, steps, .running⟩] }
      created.advance workflowId (created.tasksOf workflowId) ids now
  else none

/-- A worker takes a task on. -/
def lease (w : World) (taskId : Uuid) : Option World :=
  match w.stores.db.findTask taskId with
  | some row =>
    if row.state = .pending then
      some { w with stores := { w.stores with
        db := w.stores.db.updateTaskState taskId .leased (some (row.attempt + 1)) } }
    else none
  | none => none

/-- A worker commits the effect of a task, and its success with it. -/
def succeed (w : World) (taskId : Uuid) (fence : ℕ) (result : Option Json) : Option World :=
  match w.stores.db.findTask taskId with
  | some row =>
    let key := TaskEnvelope.keyOr row.dedupKey row.id
    if row.state = .leased then
      match w.stores.db.checkEffect key fence with
      | .absent =>
        some { w with stores := { w.stores with
          db := (w.stores.db.insertEffect ⟨key, taskId, fence, result⟩).updateTaskState
            taskId .succeeded none } }
      | .present =>
        some { w with stores := { w.stores with
          db := w.stores.db.updateTaskState taskId .succeeded none } }
      | .rejected _ => none
    else none
  | none => none

/-- A worker gives a task up for good. -/
def die (w : World) (taskId : Uuid) : Option World :=
  match w.stores.db.findTask taskId with
  | some row =>
    if row.state = .leased then
      some { w with stores := { w.stores with
        db := w.stores.db.updateTaskState taskId .dead none } }
    else none
  | none => none

/-- What can happen next: a call of the engine, or progress on a task. -/
inductive Act
  | submit (workflowId : Uuid) (name : String) (steps : List WorkflowStep) (order : List String)
      (ids : List Uuid) (now : ℚ)
  | advance (workflowId : Uuid) (rows : List TaskRow) (ids : List Uuid) (now : ℚ)
  | lease (taskId : Uuid)
  | succeed (taskId : Uuid) (fence : ℕ) (result : Option Json)
  | die (taskId : Uuid)

/-- One such event. -/
def step (w : World) : Act → Option World
  | .submit workflowId name steps order ids now => w.submit workflowId name steps order ids now
  | .advance workflowId rows ids now => w.advance workflowId rows ids now
  | .lease taskId => w.lease taskId
  | .succeed taskId fence result => w.succeed taskId fence result
  | .die taskId => w.die taskId

end World

end Dtq
