import Dtq.Worker.Executor

/-!
# The control plane

The endpoints of `dtq/control/app.py` that change tasks: `create_task`
(`POST /v1/tasks`) with `TaskRepository.create_task` inside it, and `requeue_dlq`. Each
is a machine that stops at every call to Postgres or Redis, as in the executor.

`create_task` commits the row first and talks to the broker afterwards.
`requeue_dlq` publishes inside a loop whose updates are committed at the end, so its
row locks are held while the messages are already out.
-/

set_option autoImplicit false

namespace Dtq

/-- The body of `POST /v1/tasks`. -/
structure CreateTaskRequest where
  queue : String
  taskName : String
  payload : Json
  dedupKey : Option String := none
  priority : ℤ := 0
  runAt : Option DateTime := none
  maxAttempts : ℤ := 5
deriving DecidableEq

/-- The answer of `POST /v1/tasks`. -/
structure CreateTaskResponse where
  taskId : Uuid
  deduplicated : Bool
deriving DecidableEq

namespace CreateTaskRequest

variable (req : CreateTaskRequest)

/-- The row `TaskRepository.create_task` inserts. -/
def row (taskId : Uuid) : TaskRow :=
  { id := taskId
    queue := req.queue
    taskName := req.taskName
    payload := req.payload
    state := if req.runAt.isNone then .pending else .scheduled
    priority := req.priority
    maxAttempts := req.maxAttempts
    dedupKey := req.dedupKey
    runAt := req.runAt }

/-- The envelope the endpoint publishes or schedules. -/
def envelope (taskId : Uuid) (now : ℚ) : TaskEnvelope :=
  { taskId := taskId
    queue := req.queue
    taskName := req.taskName
    payload := req.payload
    maxAttempts := req.maxAttempts
    priority := req.priority
    dedupKey := req.dedupKey
    retryPolicy := { maxAttempts := req.maxAttempts }
    createdAt := now }

/-- `if dedup_key:` — a missing or empty key skips the lookup. -/
def looksUp : Option String
  := match req.dedupKey with
  | some key => if key = "" then none else some key
  | none => none

end CreateTaskRequest

/-- The call of `create_task` that a request is waiting on. -/
inductive PostPc
  /-- the lookup by queue and dedup key -/
  | select (key : String)
  /-- the `INSERT` of the task row -/
  | insert
  /-- `COMMIT` of the transaction that inserted the row -/
  | commit
  /-- `COMMIT` of a transaction that found an existing row -/
  | commitFound (taskId : Uuid)
  /-- the row is committed: compare `run_at`, then `schedule` or `ensure_queue` -/
  | dispatch
  /-- `publish` -/
  | publish (envelope : TaskEnvelope)
  /-- the request has been answered, or ended in an exception -/
  | ended (response : Option CreateTaskResponse)
deriving DecidableEq

/-- A `POST /v1/tasks` request in progress, with the `uuid4` it drew. -/
structure Post where
  req : CreateTaskRequest
  taskId : Uuid
  pc : PostPc
deriving DecidableEq

namespace Post

variable (post : Post)

/-- A request begins with the lookup when its dedup key is truthy. -/
def begin (req : CreateTaskRequest) (taskId : Uuid) : Post :=
  { req := req
    taskId := taskId
    pc := match req.looksUp with
      | some key => .select key
      | none => .insert }

/-- The request has been answered or has failed. -/
def Ended : Prop := ∃ response, post.pc = .ended response

instance : Decidable post.Ended :=
  match h : post.pc with
  | .ended response => isTrue ⟨response, h⟩
  | .select _ | .insert | .commit | .commitFound _ | .dispatch | .publish _ =>
    isFalse (by rintro ⟨response, h'⟩; simp [h] at h')

/-- The row the request's open transaction has inserted and not committed. -/
def inserted : Option TaskRow :=
  if post.pc = .commit then some (post.req.row post.taskId) else none

def goto (pc : PostPc) : Post := { post with pc := pc }

/-- The answer to a request whose task was created. -/
def created : Post := post.goto (.ended (some ⟨post.taskId, false⟩))

/-- What a step of a request leaves: the stores, the request, and the envelope it
has just handed to the broker, if any. -/
structure Outcome where
  stores : Stores
  post : Post
  sent : Option TaskEnvelope := none

/-- The pending call returns. `waiting` holds the rows that other open transactions
have inserted. -/
def proceed (stores : Stores) (waiting : List TaskRow) (now : ℚ) : Option Outcome :=
  match post.pc with
  | .select key =>
    match stores.db.findDedup post.req.queue key with
    | some row => some { stores := stores, post := post.goto (.commitFound row.id) }
    | none => some { stores := stores, post := post.goto .insert }
  | .insert =>
    let row := post.req.row post.taskId
    -- an equal key in another open transaction makes the `INSERT` wait, or fail later
    if stores.db.Insertable row ∧ ∀ other ∈ waiting, other.id ≠ row.id ∧ ¬ Db.SameDedup other row
    then some { stores := stores, post := post.goto .commit }
    else none
  | .commit =>
    some
      { stores := { stores with db := stores.db.insertTask (post.req.row post.taskId) }
        post := post.goto .dispatch }
  | .commitFound taskId =>
    some { stores := stores, post := post.goto (.ended (some ⟨taskId, true⟩)) }
  | .dispatch =>
    let envelope := post.req.envelope post.taskId now
    match post.req.runAt with
    | none => some { stores := stores, post := post.goto (.publish envelope) }
    | some runAt =>
      match runAt.gtNow now, runAt.timestamp with
      | some true, some at_ =>
        some
          { stores :=
              { stores with
                redis := stores.redis.modifyQueue post.req.queue (·.schedule envelope at_) }
            post := post.created
            sent := some envelope }
      | some _, _ => some { stores := stores, post := post.goto (.publish envelope) }
      -- a naive `run_at` cannot be compared with an aware one: `TypeError`
      | none, _ => some { stores := stores, post := post.goto (.ended none) }
  | .publish envelope =>
    some
      { stores :=
          { stores with redis := stores.redis.modifyQueue post.req.queue (·.publish envelope) }
        post := post.created
        sent := some envelope }
  | .ended _ => none

/-- The pending call raises, or the process dies: the request ends without an
answer and an open transaction is rolled back. -/
def aborted : Option Post :=
  match post.pc with
  | .ended _ => none
  | _ => some (post.goto (.ended none))

end Post

/-! ### Requeueing dead letters -/

/-- The call of `requeue_dlq` that a request is waiting on. -/
inductive RequeuePc
  /-- the loop over `task_ids`: `get_task` and `update_task_state` of the first one; the
  final `COMMIT` when none is left -/
  | next (taskIds : List Uuid)
  /-- `publish` of a fresh envelope, then the rest of the loop -/
  | publish (envelope : TaskEnvelope) (rest : List Uuid)
  | ended
deriving DecidableEq

/-- A `POST /v1/dlq/{queue}/requeue` request in progress. `updated` are the tasks its
open transaction has set to pending. -/
structure Requeue where
  queue : String
  pc : RequeuePc
  updated : List Uuid := []
deriving DecidableEq

/-- The envelope `requeue_dlq` builds from the task's row: attempt reset, and the
dedup key cleared. -/
def requeueEnvelope (queue : String) (row : TaskRow) (now : ℚ) : TaskEnvelope :=
  { taskId := row.id
    queue := queue
    taskName := row.taskName
    payload := row.payload
    maxAttempts := row.maxAttempts
    priority := row.priority
    dedupKey := none
    retryPolicy := { maxAttempts := row.maxAttempts }
    createdAt := now }

namespace Requeue

variable (requeue : Requeue)

/-- The task rows locked by the request's open transaction. -/
def updating (taskId : Uuid) : Bool :=
  requeue.pc ≠ .ended ∧ taskId ∈ requeue.updated

/-- The pending call returns. An unknown task id is logged and skipped. -/
def proceed (stores : Stores) (locks : Locks) (now : ℚ) : Option (Stores × Requeue) :=
  match requeue.pc with
  -- the loop is done: the session commits all its updates at once
  | .next [] =>
    some ({ stores with
        db := requeue.updated.foldl (fun db t => db.updateTaskState t .pending (some 0))
          stores.db },
      { requeue with pc := .ended })
  | .next (taskId :: rest) =>
    match stores.db.findTask taskId with
    | none => some (stores, { requeue with pc := .next rest })
    | some row =>
      -- the `UPDATE` waits for another request that has updated the same row
      if locks.updating taskId ∧ taskId ∉ requeue.updated then none
      else
        some (stores,
          { requeue with
            pc := .publish (requeueEnvelope requeue.queue row now) rest
            updated := taskId :: requeue.updated })
  | .publish envelope rest =>
    some ({ stores with redis := stores.redis.modifyQueue requeue.queue (·.publish envelope) },
      { requeue with pc := .next rest })
  | .ended => none

/-- The pending call raises. A failed publication is logged and the loop goes on; a
failed statement aborts the transaction, so that everything after it fails too and
the updates are rolled back. -/
def raised : Option Requeue :=
  match requeue.pc with
  | .next _ => some { requeue with pc := .ended }
  | .publish _ rest => some { requeue with pc := .next rest }
  | .ended => none

end Requeue

end Dtq
