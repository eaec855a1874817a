import Dtq.Core.Models

/-!
# The Postgres store

The tables of `dtq/store/tables.py` and the operations of `TaskRepository` on their
committed contents. A table is a list of rows; that keys are unique is what the
constraints enforce on insertion and not built into the type.

Every operation here is what a statement does to the committed tables once its
transaction commits. Which statements form one transaction, and what concurrent
transactions make of each other, is decided where the operations are called.
The audit columns `started_at`, `created_at`, `updated_at` and `committed_at`, which no
operation reads, are left out.
-/

set_option autoImplicit false

namespace Dtq

/-- A row of `tasks`. -/
structure TaskRow where
  id : Uuid
  queue : String
  taskName : String
  payload : Json
  state : TaskState
  priority : ℤ
  attempt : ℕ := 0
  maxAttempts : ℤ
  dedupKey : Option String
  runAt : Option DateTime
  workflowId : Option Uuid := none
  stepName : Option String := none
deriving DecidableEq

/-- The columns of a task that no update touches. -/
def TaskRow.core (row : TaskRow) : TaskRow := { row with state := .pending, attempt := 0 }

/-- A row of `attempts`. -/
structure AttemptRow where
  taskId : Uuid
  attemptNo : ℕ
  workerId : String
  fence : ℕ
  finishedAt : Option ℚ := none
  outcome : Option AttemptOutcome := none
  errorType : Option String := none
  errorRepr : Option String := none
deriving DecidableEq

/-- The columns of an attempt that no update touches. -/
def AttemptRow.ident (a : AttemptRow) : Uuid × ℕ × ℕ := (a.taskId, a.attemptNo, a.fence)

/-- A row of `effects`. -/
structure EffectRow where
  dedupKey : String
  taskId : Uuid
  fence : ℕ
  result : Option Json
deriving DecidableEq

/-- The committed tables. -/
structure Db where
  tasks : List TaskRow
  attempts : List AttemptRow
  effects : List EffectRow

/-- What the lookup in `commit_effect` finds: no row, a row that is not newer, or a
row with a higher fence, for which it raises `FenceRejectedError`. -/
inductive EffectCheck
  | absent
  | present
  | rejected (error : String)
deriving DecidableEq

namespace Db

/-- Empty tables. -/
def empty : Db := ⟨[], [], []⟩

/-! ### Tasks -/

/-- The row `get_task` and foreign keys look for. -/
def findTask (db : Db) (taskId : Uuid) : Option TaskRow :=
  db.tasks.find? fun row => row.id = taskId

/-- The lookup of `create_task` by queue and dedup key. -/
def findDedup (db : Db) (queue key : String) : Option TaskRow :=
  db.tasks.find? fun row => row.queue = queue ∧ row.dedupKey = some key

/-- Two rows that the partial unique index `tasks_dedup` does not allow together. -/
def SameDedup (row row' : TaskRow) : Prop :=
  row.queue = row'.queue ∧ row.dedupKey = row'.dedupKey ∧ row.dedupKey ≠ none

instance (row row' : TaskRow) : Decidable (SameDedup row row') :=
  inferInstanceAs (Decidable (_ ∧ _ ∧ _))

/-- The ranges of the `SmallInteger` and `Integer` columns. -/
def Fits (row : TaskRow) : Prop :=
  -2 ^ 15 ≤ row.priority ∧ row.priority < 2 ^ 15 ∧
    -2 ^ 31 ≤ row.maxAttempts ∧ row.maxAttempts < 2 ^ 31

instance (row : TaskRow) : Decidable (Fits row) :=
  inferInstanceAs (Decidable (_ ∧ _ ∧ _ ∧ _))

/-- An `INSERT` of a task passes the column ranges, the primary key and the dedup
index against the committed rows. -/
def Insertable (db : Db) (row : TaskRow) : Prop :=
  Fits row ∧ ∀ other ∈ db.tasks, other.id ≠ row.id ∧ ¬ SameDedup other row

instance (db : Db) (row : TaskRow) : Decidable (db.Insertable row) :=
  inferInstanceAs (Decidable (_ ∧ _))

/-- Insert a task row. -/
def insertTask (db : Db) (row : TaskRow) : Db := { db with tasks := db.tasks ++ [row] }

/-- One row under `update_task_state`. -/
def setState (taskId : Uuid) (state : TaskState) (attempt : Option ℕ) (row : TaskRow) : TaskRow :=
  if row.id = taskId then { row with state := state, attempt := attempt.getD row.attempt } else row

/-- `update_task_state`: the state, and the attempt when one is given. -/
def updateTaskState (db : Db) (taskId : Uuid) (state : TaskState) (attempt : Option ℕ) : Db :=
  { db with tasks := db.tasks.map (setState taskId state attempt) }

/-- `cancel_task`: only a pending or scheduled task is cancelled. -/
def cancelTask (db : Db) (taskId : Uuid) : Db :=
  { db with tasks := db.tasks.map fun row =>
      if row.id = taskId ∧ (row.state = .pending ∨ row.state = .scheduled) then
        { row with state := .cancelled }
      else row }

/-! ### Attempts -/

/-- `create_attempt`: refused when the task row is missing (foreign key) or the
attempt number is taken (`UNIQUE (task_id, attempt_no)`). -/
def createAttempt (db : Db) (row : AttemptRow) : Option Db :=
  if (∃ task ∈ db.tasks, task.id = row.taskId) ∧
      ∀ other ∈ db.attempts, ¬ (other.taskId = row.taskId ∧ other.attemptNo = row.attemptNo) then
    some { db with attempts := db.attempts ++ [row] }
  else none

/-- `close_attempt`: overwrite the outcome columns of one attempt. -/
def closeAttempt (db : Db) (taskId : Uuid) (attemptNo : ℕ) (outcome : AttemptOutcome)
    (errorType errorRepr : Option String) (now : ℚ) : Db :=
  { db with attempts := db.attempts.map fun a =>
      if a.taskId = taskId ∧ a.attemptNo = attemptNo then
        { a with
          finishedAt := some now
          outcome := some outcome
          errorType := errorType
          errorRepr := errorRepr }
      else a }

/-! ### Effects -/

/-- The lookup of `commit_effect` and `get_effect`. -/
def findEffect (db : Db) (key : String) : Option EffectRow :=
  db.effects.find? fun row => row.dedupKey = key

/-- The text of the `FenceRejectedError` that `commit_effect` raises. -/
def fenceRejectedText (key : String) (found fence : ℕ) : String :=
  "Effect for " ++ key ++ " already committed with higher fence " ++ toString found ++ " > " ++
    toString fence ++ ". This worker is a zombie."

/-- The `SELECT` of `commit_effect` and what it makes of the row. -/
def checkEffect (db : Db) (key : String) (fence : ℕ) : EffectCheck :=
  match db.findEffect key with
  | none => .absent
  | some row =>
    if row.fence > fence then .rejected (fenceRejectedText key row.fence fence) else .present

/-- Some row is committed under the key. -/
def HasEffect (db : Db) (key : String) : Prop := ∃ row ∈ db.effects, row.dedupKey = key

instance (db : Db) (key : String) : Decidable (db.HasEffect key) :=
  inferInstanceAs (Decidable (∃ row ∈ db.effects, _))

/-- Insert an effect row. -/
def insertEffect (db : Db) (row : EffectRow) : Db := { db with effects := db.effects ++ [row] }

/-! ### What each operation leaves alone -/

section Frame

variable (db : Db) (taskId : Uuid) (state : TaskState) (attempt : Option ℕ)

@[simp] theorem insertTask_attempts (row : TaskRow) : (db.insertTask row).attempts = db.attempts :=
  rfl

@[simp] theorem insertTask_effects (row : TaskRow) : (db.insertTask row).effects = db.effects :=
  rfl

@[simp] theorem updateTaskState_attempts :
    (db.updateTaskState taskId state attempt).attempts = db.attempts := rfl

@[simp] theorem updateTaskState_effects :
    (db.updateTaskState taskId state attempt).effects = db.effects := rfl

@[simp] theorem cancelTask_attempts : (db.cancelTask taskId).attempts = db.attempts := rfl

@[simp] theorem cancelTask_effects : (db.cancelTask taskId).effects = db.effects := rfl

@[simp] theorem closeAttempt_tasks (no : ℕ) (outcome : AttemptOutcome) (et er : Option String)
    (now : ℚ) : (db.closeAttempt taskId no outcome et er now).tasks = db.tasks := rfl

@[simp] theorem closeAttempt_effects (no : ℕ) (outcome : AttemptOutcome) (et er : Option String)
    (now : ℚ) : (db.closeAttempt taskId no outcome et er now).effects = db.effects := rfl

@[simp] theorem insertEffect_tasks (row : EffectRow) : (db.insertEffect row).tasks = db.tasks :=
  rfl

@[simp] theorem insertEffect_attempts (row : EffectRow) :
    (db.insertEffect row).attempts = db.attempts := rfl

@[simp] theorem insertEffect_effects (row : EffectRow) :
    (db.insertEffect row).effects = db.effects ++ [row] := rfl

@[simp] theorem setState_core (row : TaskRow) :
    (setState taskId state attempt row).core = row.core := by
  unfold setState
  split <;> rfl

@[simp] theorem setState_id (row : TaskRow) : (setState taskId state attempt row).id = row.id := by
  unfold setState
  split <;> rfl

/-- Changing states changes nothing else about a task. -/
@[simp] theorem updateTaskState_core :
    (db.updateTaskState taskId state attempt).tasks.map TaskRow.core =
      db.tasks.map TaskRow.core := by
  simp [updateTaskState, Function.comp_def]

@[simp] theorem cancelTask_core :
    (db.cancelTask taskId).tasks.map TaskRow.core = db.tasks.map TaskRow.core := by
  simp only [cancelTask, List.map_map]
  refine List.map_congr_left fun row _ => ?_
  simp only [Function.comp_apply]
  split <;> rfl

/-- Closing an attempt changes no attempt's task, number or fence. -/
@[simp] theorem closeAttempt_ident (no : ℕ) (outcome : AttemptOutcome) (et er : Option String)
    (now : ℚ) :
    (db.closeAttempt taskId no outcome et er now).attempts.map AttemptRow.ident =
      db.attempts.map AttemptRow.ident := by
  simp only [closeAttempt, List.map_map]
  refine List.map_congr_left fun a _ => ?_
  simp only [Function.comp_apply, AttemptRow.ident]
  split <;> rfl

end Frame

/-! ### Specifications of the fallible operations -/

/-- A fact about the untouched columns of every row survives updates. -/
theorem forall_core {db db' : Db} (h : db'.tasks.map TaskRow.core = db.tasks.map TaskRow.core)
    {P : TaskRow → Prop} (hrows : ∀ row ∈ db.tasks, P row.core) :
    ∀ row ∈ db'.tasks, P row.core := by
  intro row hrow
  have hmem : row.core ∈ db.tasks.map TaskRow.core := h ▸ List.mem_map_of_mem hrow
  obtain ⟨old, hold, heq⟩ := List.mem_map.mp hmem
  exact heq ▸ hrows old hold

theorem createAttempt_eq_some {db db' : Db} {row : AttemptRow}
    (h : db.createAttempt row = some db') :
    (∃ task ∈ db.tasks, task.id = row.taskId) ∧
      (∀ other ∈ db.attempts,
        ¬ (other.taskId = row.taskId ∧ other.attemptNo = row.attemptNo)) ∧
      db' = { db with attempts := db.attempts ++ [row] } := by
  unfold createAttempt at h
  split_ifs at h with hok
  exact ⟨hok.1, hok.2, (Option.some.inj h).symm⟩

theorem findEffect_eq_none_iff {db : Db} {key : String} :
    db.findEffect key = none ↔ ¬ db.HasEffect key := by
  simp [findEffect, HasEffect]

theorem hasEffect_of_findEffect {db : Db} {key : String} {row : EffectRow}
    (h : db.findEffect key = some row) : row ∈ db.effects ∧ row.dedupKey = key :=
  ⟨List.mem_of_find?_eq_some h, by simpa using List.find?_some h⟩

/-- A key that has an effect keeps it as long as rows are only added. -/
theorem HasEffect.mono {db db' : Db} {key : String} (h : db.HasEffect key)
    (hgrow : db.effects <+: db'.effects) : db'.HasEffect key := by
  obtain ⟨row, hrow, hkey⟩ := h
  exact ⟨row, hgrow.subset hrow, hkey⟩

theorem hasEffect_congr {db db' : Db} {key : String} (h : db'.effects = db.effects) :
    db'.HasEffect key ↔ db.HasEffect key := by
  rw [HasEffect, HasEffect, h]

theorem checkEffect_eq_absent_iff {db : Db} {key : String} {fence : ℕ} :
    db.checkEffect key fence = .absent ↔ ¬ db.HasEffect key := by
  rw [← findEffect_eq_none_iff]
  unfold checkEffect
  cases db.findEffect key with
  | none => simp
  | some row =>
    simp only [reduceCtorEq, iff_false]
    split <;> simp

end Db

end Dtq
