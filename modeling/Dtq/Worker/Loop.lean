import Dtq.Core.Backoff
import Dtq.Worker.Executor

/-!
# Processing a message

`WorkerLoop._process_message` around `execute`, and the part of `_reclaim_loop` that
prepares an adopted message. What `execute` returns decides between an
acknowledgement, a scheduled retry and the dead-letter queue; the message is
acknowledged last. An exception anywhere else ends the processing without an
acknowledgement, which leaves the message pending.
-/

set_option autoImplicit false

namespace Dtq

namespace Job

variable (job : Job)

/-- `reason=error_repr or "max_attempts_exhausted"`. -/
def deadLetterReason : Option String → String
  | some text => if text = "" then "max_attempts_exhausted" else text
  | none => "max_attempts_exhausted"

/-- `is_retryable(retry_policy, error_type, envelope.attempt + 1)`. -/
def retries (errorRepr : Option String) : Bool :=
  isRetryable job.envelope.retryPolicy (errorTypeOf errorRepr) (job.envelope.attempt + 1)

/-- Change the keys of the job's queue. -/
def onQueue (stores : Stores) (f : QueueState → QueueState) : Stores :=
  { stores with redis := stores.redis.modifyQueue job.queue f }

/-- `_reclaim_loop` hands the adopted message on with its attempt incremented. -/
def adopted : Job :=
  { job with envelope := job.envelope.nextAttempt, pc := .execute .acquireLease }

/-- The pending call returns. `now` is the worker's clock and `draw` its
`random.random()`. -/
def proceed (stores : Stores) (locks : Locks) (now draw : ℚ) : Option (Stores × Job) :=
  match job.pc with
  | .closePrior =>
    some ({ stores with
        db := stores.db.closeAttempt job.envelope.taskId job.envelope.attempt .leaseLost
          none none now },
      job.adopted)
  | .execute pc => job.executeOk stores locks now pc
  | .returned true _ =>
    some (job.onQueue stores (·.ack job.msgId), { job with pc := .ended })
  | .returned false errorRepr =>
    -- the successor first, the acknowledgement last
    if job.retries errorRepr then
      (computeDelay job.envelope.retryPolicy (job.envelope.attempt + 1) draw).map fun delay =>
        (job.onQueue stores (·.schedule job.envelope.nextAttempt (now + delay)),
          { job with pc := .ack })
    else
      some (job.onQueue stores (·.deadLetter job.envelope (deadLetterReason errorRepr)),
        { job with pc := .markDead })
  | .markDead =>
    if locks.updating job.envelope.taskId then none
    else
      some ({ stores with db := stores.db.updateTaskState job.envelope.taskId .dead none },
        { job with pc := .ack })
  | .ack => some (job.onQueue stores (·.ack job.msgId), { job with pc := .ended })
  | .ended => none

/-- The pending call raises. The reclaim loop swallows the exception of its own
transaction; `_process_message` logs any other one and ends. -/
def raised (message : String) : Option Job :=
  match job.pc with
  | .closePrior => some job.adopted
  | .execute pc => job.executeRaised message pc
  | .returned _ _ | .markDead | .ack => some { job with pc := .ended }
  | .ended => none

end Job

end Dtq
