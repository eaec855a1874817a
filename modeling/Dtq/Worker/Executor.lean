import Dtq.Broker.Redis
import Dtq.Store.Repository

/-!
# Executing a task

`TaskExecutor.execute` as a machine that stops at every call to Redis or Postgres.
The first transaction, which records the attempt, is one step: its statements read
nothing and become visible together. The second one, which commits the effect, is
cut at its `SELECT`, its `INSERT` and its `COMMIT` or `ROLLBACK`, because what other
workers commit in between decides its outcome; the `UPDATE`s it makes on the way are
blind writes and take effect with the commit.

A call may return, or raise with or without having taken effect. `executeOk` says
what a call does and where the code goes on when it returns, `executeRaised` where
it goes on when the call raises.
-/

set_option autoImplicit false

namespace Dtq

/-- Redis and the committed Postgres tables. -/
structure Stores where
  redis : Redis
  db : Db

/-- What concurrent transactions hold against a statement: effect keys inserted
but not committed, and task rows updated but not committed. -/
structure Locks where
  inserting : String → Bool
  updating : Uuid → Bool

/-- The call of `execute` that a worker is waiting on. -/
inductive ExecutePc
  /-- `acquire_lease` -/
  | acquireLease
  /-- the transaction of `create_attempt` and `update_task_state(LEASED)` -/
  | recordAttempt
  /-- that transaction failed: `release_lease`, then return a `StoreError` -/
  | abandon (error : String)
  /-- `get_handler` -/
  | startHandler
  /-- the handler has been started and has not ended -/
  | handlerRunning
  /-- `commit_effect`: the `SELECT` -/
  | selectEffect (result : Option Json)
  /-- `commit_effect`: the `INSERT` -/
  | insertEffect (result : Option Json)
  /-- `COMMIT` after `commit_effect` returned `committed` -/
  | commitSuccess (result : Option Json) (committed : Bool)
  /-- the transaction that closes a failed attempt -/
  | closeFailed (errorType errorRepr : String)
  /-- `ROLLBACK` in one of the two exception handlers -/
  | rollback (errorRepr : String)
  /-- the final `release_lease` -/
  | releaseLease (success : Bool) (errorRepr : Option String)
deriving DecidableEq

/-- Where `_process_message`, or the reclaim loop just before it, is waiting. -/
inductive Pc
  /-- the reclaim loop closes the prior attempt of an adopted message -/
  | closePrior
  /-- inside `execute` -/
  | execute (pc : ExecutePc)
  /-- `execute` has returned; the next call is decided by what it returned -/
  | returned (success : Bool) (errorRepr : Option String)
  /-- the message is in the dead-letter queue; `update_task_state(DEAD)` -/
  | markDead
  /-- the final `ack` -/
  | ack
  | ended
deriving DecidableEq

/-- One message in the hands of a worker, from its delivery or adoption to the end
of `_process_message`. The last three fields are history: whether the handler was
started, whether a transaction in which `commit_effect` returned true was
committed, and what `execute` returned. -/
structure Job where
  workerId : String
  leaseMs : ℕ+
  queue : String
  msgId : ℕ
  envelope : TaskEnvelope
  pc : Pc
  fence : ℕ := 0
  started : Bool := false
  committed : Bool := false
  returned : Option (Bool × Option String) := none
deriving DecidableEq

/-- How a handler ends. By its type it returns a `dict` or `None`. `timedOut` carries
Python's text of `lease_ms * 0.8`. -/
inductive HandlerOutcome
  | returned (result : Option Json)
  | timedOut (ms : String)
  | fenceRejected (message : String)
  | raised (errorType traceback : String)

namespace Job

variable (job : Job)

/-- `envelope.task_id` as text, which names the lease. -/
def taskText : String := job.envelope.taskId.str

/-- `envelope.dedup_key or task_id`. -/
def key : String := job.envelope.effectKey

/-- The message is still being worked on. -/
def Active : Prop := job.pc ≠ .ended

instance : Decidable job.Active := inferInstanceAs (Decidable (_ ≠ _))

/-- The job's transaction holds an uncommitted row of `effects` under this key. -/
def inserting (key : String) : Bool :=
  match job.pc with
  | .execute (.commitSuccess _ true) => job.key = key
  | _ => false

/-- Continue at a later call of `execute`. -/
def goto (pc : ExecutePc) : Job := { job with pc := .execute pc }

/-- `return success, error_repr`. -/
def returns (success : Bool) (errorRepr : Option String) : Job :=
  { job with pc := .returned success errorRepr, returned := some (success, errorRepr) }

/-- The row `create_attempt` inserts. -/
def attemptRow : AttemptRow :=
  { taskId := job.envelope.taskId
    attemptNo := job.envelope.attemptNo
    workerId := job.workerId
    fence := job.fence }

/-- The row `commit_effect` inserts. -/
def effectRow (result : Option Json) : EffectRow :=
  { dedupKey := job.key, taskId := job.envelope.taskId, fence := job.fence, result := result }

/-- `release_lease` of the job's own lease. -/
def release (stores : Stores) : Stores :=
  { stores with
    redis := stores.redis.withLeases
      (stores.redis.leaseStore.releaseLease job.taskText job.workerId job.fence).1 }

/-- The call returns: what it does to the stores, and where `execute` goes on.
`none` means that the call cannot return now, because Postgres refuses the
statement or makes it wait for another transaction. -/
def executeOk (stores : Stores) (locks : Locks) (now : ℚ) :
    ExecutePc → Option (Stores × Job)
  | .acquireLease =>
    let (store, fence) :=
      stores.redis.leaseStore.acquireLease job.taskText job.workerId job.leaseMs
    let stores := { stores with redis := stores.redis.withLeases store }
    -- `if fence == 0`: nothing was recorded, so nothing is released
    if fence = 0 then
      some (stores, job.returns false (some "LeaseAcquireError: already held"))
    else
      some (stores, { job with fence := fence }.goto .recordAttempt)
  | .recordAttempt =>
    if locks.updating job.envelope.taskId then none
    else
      (stores.db.createAttempt job.attemptRow).map fun db =>
        ({ stores with
            db := db.updateTaskState job.envelope.taskId .leased (some job.envelope.attemptNo) },
          job.goto .startHandler)
  | .abandon error => some (job.release stores, job.returns false (some error))
  | .startHandler => some (stores, { job with started := true }.goto .handlerRunning)
  -- the handler ends on its own; see `handlerEnds`
  | .handlerRunning => none
  | .selectEffect result =>
    match stores.db.checkEffect job.key job.fence with
    | .absent => some (stores, job.goto (.insertEffect result))
    | .present => some (stores, job.goto (.commitSuccess result false))
    | .rejected error => some (stores, job.goto (.rollback error))
  | .insertEffect result =>
    -- the primary key, against committed rows and rows of open transactions
    if stores.db.HasEffect job.key ∨ locks.inserting job.key then none
    else some (stores, job.goto (.commitSuccess result true))
  | .commitSuccess result true =>
    if locks.updating job.envelope.taskId then none
    else
      some ({ stores with
          db := ((stores.db.insertEffect (job.effectRow result)).updateTaskState
            job.envelope.taskId .succeeded none).closeAttempt
              job.envelope.taskId job.envelope.attemptNo .succeeded none none now },
        { job with committed := true }.goto (.releaseLease true none))
  -- the effect was there before: the attempt is closed, the task's state is not written
  | .commitSuccess _ false =>
    some ({ stores with
        db := stores.db.closeAttempt
          job.envelope.taskId job.envelope.attemptNo .succeeded none none now },
      job.goto (.releaseLease true none))
  | .closeFailed errorType errorRepr =>
    let outcome := if errorType = "FenceRejectedError" then .leaseLost else .failed
    some ({ stores with
        db := stores.db.closeAttempt job.envelope.taskId job.envelope.attemptNo outcome
          (some errorType) (some errorRepr) now },
      job.goto (.releaseLease false (some errorRepr)))
  | .rollback errorRepr => some (stores, job.goto (.releaseLease false (some errorRepr)))
  | .releaseLease success errorRepr =>
    some (job.release stores, job.returns success errorRepr)

/-- The call raises: the first transaction ends in a `StoreError`, the second one in
a `CommitError`; any other exception leaves `execute` and ends the message's
processing without an acknowledgement. While the handler runs, the call is a renewal
of the lease: its exception comes out where the stopped heartbeat is awaited. -/
def executeRaised (message : String) : ExecutePc → Option Job
  | .recordAttempt => some (job.goto (.abandon ("StoreError: " ++ message)))
  | .selectEffect _ | .insertEffect _ | .commitSuccess _ _ | .closeFailed _ _ =>
    some (job.goto (.rollback ("CommitError: " ++ message)))
  | .acquireLease | .handlerRunning | .abandon _ | .rollback _ | .releaseLease _ _ =>
    some { job with pc := .ended }
  | .startHandler => none

/-- The handler ends, or there is none registered under the task's name and
`execute` raises a `RuntimeError` with this traceback in its place. -/
def handlerEnds : HandlerOutcome → Option Job
  | .returned result =>
    if job.pc = .execute .handlerRunning then some (job.goto (.selectEffect result)) else none
  | .timedOut ms =>
    if job.pc = .execute .handlerRunning then
      some (job.goto (.closeFailed "TimeoutError"
        ("Task exceeded execution timeout (" ++ ms ++ "ms)")))
    else none
  | .fenceRejected message =>
    if job.pc = .execute .handlerRunning then
      some (job.goto (.closeFailed "FenceRejectedError" message))
    else none
  | .raised errorType traceback =>
    if job.pc = .execute .handlerRunning ∨
        job.pc = .execute .startHandler ∧ errorType = "RuntimeError" then
      some (job.goto (.closeFailed errorType traceback))
    else none

/-- One renewal by `_heartbeat_loop` while the handler runs. A lost lease does not
stop the handler. -/
def heartbeat (stores : Stores) : Option Stores :=
  if job.pc = .execute .handlerRunning then
    some { stores with
      redis := stores.redis.withLeases
        (stores.redis.leaseStore.extendLease job.taskText job.workerId job.fence job.leaseMs).1 }
  else none

end Job

end Dtq
