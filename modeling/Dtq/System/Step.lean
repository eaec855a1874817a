import Dtq.Control.App
import Dtq.Worker.Loop
import Dtq.Lib.Transition

/-!
# The system

Any number of workers, requests and stores, interleaved call by call. A label says
which party moves and how the environment answers; the environment may deliver,
promote, adopt or expire at any moment, let any call raise before or after it took
effect, and kill any party between two calls. A worker that dies takes all its jobs
with it, which is a sequence of `crash` moves.

`enqueued` is history: every envelope a producer has put on a queue.
-/

set_option autoImplicit false

namespace Dtq

/-- The state of the whole system. Jobs and requests keep their position when they
end, so a position names one for good. -/
structure Sys where
  redis : Redis
  db : Db
  jobs : List Job
  posts : List Post
  requeues : List Requeue
  enqueued : List (String × TaskEnvelope)

/-- How the environment treats the call a party is waiting on. -/
inductive Reply
  /-- the call takes effect and returns -/
  | ok (now draw : ℚ)
  /-- the call raises, after having taken effect when `applied` -/
  | raise (applied : Bool) (now draw : ℚ) (message : String)
  /-- the party dies -/
  | crash

/-- The call takes effect, whether or not it then returns. -/
def Reply.applied : Reply → Bool
  | .ok _ _ => true
  | .raise applied _ _ _ => applied
  | .crash => false

/-- What the answer to its pending call makes of a request. An exception and the death of
the process end the request; what the call has done stays. -/
def Post.answer (post : Post) (stores : Stores) (waiting : List TaskRow) : Reply → Option Outcome
  | .ok now _ => post.proceed stores waiting now
  | .raise false _ _ _ | .crash => post.aborted.map fun ended => { stores := stores, post := ended }
  | .raise true now _ _ =>
    (post.proceed stores waiting now).bind fun out =>
      post.aborted.map fun ended => { out with post := ended }

/-- The moves of the system. -/
inductive Action
  /-- a `POST /v1/tasks` arrives; its `uuid4` is fresh -/
  | post (req : CreateTaskRequest) (taskId : Uuid)
  | postStep (i : ℕ) (reply : Reply)
  /-- another producer (the workflow engine, a test) publishes or schedules an envelope
  of a fresh task -/
  | produce (queue : String) (envelope : TaskEnvelope) (runAt : Option ℚ)
  /-- a `POST /v1/dlq/{queue}/requeue` arrives -/
  | requeue (queue : String) (taskIds : List Uuid)
  | requeueStep (i : ℕ) (reply : Reply)
  /-- `DELETE /v1/tasks/{id}` -/
  | cancel (taskId : Uuid)
  /-- a worker's poll is handed the next entry of a queue -/
  | deliver (workerId : String) (leaseMs : ℕ+) (queue : String)
  /-- a worker's reclaim loop adopts a pending entry -/
  | adopt (workerId : String) (leaseMs : ℕ+) (queue : String) (msgId : ℕ)
  | jobStep (i : ℕ) (reply : Reply)
  /-- the handler of a job ends -/
  | handler (i : ℕ) (outcome : HandlerOutcome)
  | heartbeat (i : ℕ)
  /-- a scheduler tick -/
  | promote (queue : String) (now : ℚ)
  /-- the lease of a task, named by its text, runs out -/
  | expire (taskText : String)

/-- A requeue request arrives. -/
def Action.isRequeue : Action → Bool
  | .requeue _ _ => true
  | _ => false

namespace Sys

/-- No keys, no rows, nobody at work. -/
def init : Sys := ⟨.empty, .empty, [], [], [], []⟩

variable (s : Sys)

/-- The stores by themselves. -/
def stores : Stores := ⟨s.redis, s.db⟩

/-- Put changed stores back. -/
def withStores (stores : Stores) : Sys := { s with redis := stores.redis, db := stores.db }

/-- What open transactions hold against new statements. -/
def locks : Locks where
  inserting key := s.jobs.any fun job => job.inserting key
  updating taskId := s.requeues.any fun r => r.updating taskId

/-- The task rows that open `create_task` transactions have inserted. -/
def waiting : List TaskRow := s.posts.filterMap Post.inserted

/-- A `uuid4` nobody has drawn before. -/
def Fresh (taskId : Uuid) : Prop :=
  (∀ p ∈ s.posts, p.taskId ≠ taskId) ∧ ∀ x ∈ s.enqueued, x.2.taskId ≠ taskId

instance (taskId : Uuid) : Decidable (s.Fresh taskId) := inferInstanceAs (Decidable (_ ∧ _))

/-- The producer's envelope is on record as soon as it is on the broker. -/
def record (queue : String) (sent : Option TaskEnvelope) : Sys :=
  { s with enqueued := s.enqueued ++ (sent.map fun e => (queue, e)).toList }

/-- A new job for a delivered or adopted entry. -/
def spawn (queue : String) (state : QueueState) (job : Job) : Sys :=
  { s with redis := s.redis.modifyQueue queue fun _ => state, jobs := s.jobs ++ [job] }

/-- Write back the stores and one job. -/
def setJob (i : ℕ) (stores : Stores) (job : Job) : Sys :=
  { s.withStores stores with jobs := s.jobs.set i job }

/-- Write back the outcome of a request's step. -/
def setPost (i : ℕ) (post : Post) (out : Post.Outcome) : Sys :=
  { (s.withStores out.stores).record post.req.queue out.sent with posts := s.posts.set i out.post }

/-- Write back the stores and one requeue request. -/
def setRequeue (i : ℕ) (stores : Stores) (requeue : Requeue) : Sys :=
  { s.withStores stores with requeues := s.requeues.set i requeue }

/-- A job's pending call is answered. When a call raises after it took effect, the
effect stays, in the stores and in the job's history, and only the code takes the
exceptional path. -/
def stepJob (i : ℕ) (job : Job) : Reply → Option Sys
  | .ok now draw =>
    (job.proceed s.stores s.locks now draw).map fun out => s.setJob i out.1 out.2
  | .raise false _ _ message => (job.raised message).map fun job => s.setJob i s.stores job
  | .raise true now draw message =>
    (job.proceed s.stores s.locks now draw).bind fun out =>
      (job.raised message).map fun failed =>
        s.setJob i out.1 { out.2 with pc := failed.pc, returned := failed.returned }
  | .crash => if job.Active then some (s.setJob i s.stores { job with pc := .ended }) else none

/-- A request's pending call is answered. -/
def stepPost (i : ℕ) (post : Post) (reply : Reply) : Option Sys :=
  (post.answer s.stores s.waiting reply).map fun out => s.setPost i post out

/-- A requeue request's pending call is answered. -/
def stepRequeue (i : ℕ) (requeue : Requeue) : Reply → Option Sys
  | .ok now _ =>
    (requeue.proceed s.stores s.locks now).map fun out => s.setRequeue i out.1 out.2
  | .raise false _ _ _ => requeue.raised.map fun r => s.setRequeue i s.stores r
  | .raise true now _ _ =>
    (requeue.proceed s.stores s.locks now).bind fun out =>
      requeue.raised.map fun r => s.setRequeue i out.1 r
  | .crash =>
    if requeue.pc = .ended then none
    else some (s.setRequeue i s.stores { requeue with pc := .ended })

/-- One move of the system. -/
def step : Action → Option Sys
  | .post req taskId =>
    if s.Fresh taskId then some { s with posts := s.posts ++ [Post.begin req taskId] } else none
  | .postStep i reply => s.posts[i]?.bind fun post => s.stepPost i post reply
  | .produce queue envelope runAt =>
    if s.Fresh envelope.taskId then
      some ({ s with
          redis := s.redis.modifyQueue queue fun q =>
            match runAt with
            | some at_ => q.schedule envelope at_
            | none => q.publish envelope }.record queue (some envelope))
    else none
  | .requeue queue taskIds =>
    some { s with requeues := s.requeues ++ [{ queue := queue, pc := .next taskIds }] }
  | .requeueStep i reply => s.requeues[i]?.bind fun requeue => s.stepRequeue i requeue reply
  | .cancel taskId =>
    if s.locks.updating taskId then none else some { s with db := s.db.cancelTask taskId }
  | .deliver workerId leaseMs queue =>
    ((s.redis.queues queue).lease workerId).map fun out =>
      s.spawn queue out.1
        { workerId := workerId
          leaseMs := leaseMs
          queue := queue
          msgId := out.2.1
          envelope := out.2.2
          pc := .execute .acquireLease }
  | .adopt workerId leaseMs queue msgId =>
    ((s.redis.queues queue).reclaim workerId msgId).map fun out =>
      s.spawn queue out.1
        { workerId := workerId
          leaseMs := leaseMs
          queue := queue
          msgId := msgId
          envelope := out.2
          pc := .closePrior }
  | .jobStep i reply => s.jobs[i]?.bind fun job => s.stepJob i job reply
  | .handler i outcome =>
    s.jobs[i]?.bind fun job =>
      (job.handlerEnds outcome).map fun job => s.setJob i s.stores job
  | .heartbeat i =>
    s.jobs[i]?.bind fun job => (job.heartbeat s.stores).map fun stores => s.withStores stores
  | .promote queue now =>
    some { s with redis := s.redis.modifyQueue queue (·.promoteScheduled now) }
  | .expire taskText =>
    some { s with redis := s.redis.withLeases (s.redis.leaseStore.expireLease taskText) }

/-- The states the system can be in. -/
def Reachable : Prop := Transition.Reaches step init s

/-- The condition of a run in which no requeue request arrives. -/
def WithoutRequeue (_ : Sys) (a : Action) : Prop := a.isRequeue = false

instance (s : Sys) (a : Action) : Decidable (WithoutRequeue s a) :=
  inferInstanceAs (Decidable (_ = _))

/-! ### Runs without faults

Building blocks for concrete runs: a request that is accepted, and a party whose calls
all return. -/

-- the lease time of the runs with fixed inputs
instance neZeroLeaseMs : NeZero 100 := ⟨by decide⟩

/-- `POST /v1/tasks` as request number `i`, answered without faults. -/
def accept (i : ℕ) (req : CreateTaskRequest) (taskId : Uuid) : List Action :=
  .post req taskId ::
    List.replicate (if req.looksUp.isSome then 5 else 4) (.postStep i (.ok 0 0))

/-- The next `n` calls of job `i` return. -/
def proceeds (i n : ℕ) : List Action := List.replicate n (.jobStep i (.ok 0 0))

end Sys

end Dtq
