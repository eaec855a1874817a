import Dtq.System.Step
import Dtq.Worker.Moves
import Dtq.Control.Moves
import Dtq.Lib.Indexed

/-!
# What a step of the system can do

`Sys.step` inverted once. A step is a move of one job, the birth of a job, a move of one
request, or a change the environment makes; `Sys.Moves` lists these with what each
writes. From it come the facts that most invariants share: which steps touch `effects`,
`attempts`, `fence:seq` and the jobs.

## Main results

* `Sys.moves_of_step` — every step is one of the listed moves
* `Sys.Moves.effects_cases` — only a job's commit writes `effects`
* `Sys.effects_grow_of_reaches` — committed effects are never changed or removed
-/

set_option autoImplicit false

namespace Dtq

namespace Post

variable {post : Post} {stores : Stores} {waiting : List TaskRow} {out : Outcome} {reply : Reply}

/-- A call that fails without effect and the death of the process are the same to a
request. -/
theorem answer_of_not_applied (h : post.answer stores waiting reply = some out)
    (hreply : reply.applied = false) :
    ¬ post.Ended ∧ out = { stores := stores, post := post.goto (.ended none) } := by
  have haborted : (post.aborted.map fun ended => ({ stores := stores, post := ended } : Outcome)) =
      some out := by
    cases reply with
    | ok => simp [Reply.applied] at hreply
    | raise applied =>
      cases applied with
      | false => exact h
      | true => simp [Reply.applied] at hreply
    | crash => exact h
  obtain ⟨ended, hended, rfl⟩ := Option.map_eq_some_iff.mp haborted
  obtain ⟨hactive, rfl⟩ := aborted_eq_some hended
  exact ⟨hactive, rfl⟩

/-- A call that takes effect does what it does when it returns; if it raises, the request
ends. -/
theorem answer_of_applied (h : post.answer stores waiting reply = some out)
    (hreply : reply.applied = true) :
    ∃ now out', post.proceed stores waiting now = some out' ∧
      ((∃ draw, reply = .ok now draw) ∧ out = out' ∨
        (∃ draw message, reply = .raise true now draw message) ∧
          out = { out' with post := post.goto (.ended none) }) := by
  cases reply with
  | ok now draw => exact ⟨now, out, h, Or.inl ⟨⟨draw, rfl⟩, rfl⟩⟩
  | raise applied now draw message =>
    cases applied with
    | false => simp [Reply.applied] at hreply
    | true =>
      obtain ⟨out', hout', hrest⟩ := Option.bind_eq_some_iff.mp h
      obtain ⟨ended, hended, rfl⟩ := Option.map_eq_some_iff.mp hrest
      obtain ⟨-, rfl⟩ := aborted_eq_some hended
      exact ⟨now, out', hout', Or.inr ⟨⟨draw, message, rfl⟩, rfl⟩⟩
  | crash => simp [Reply.applied] at hreply

/-- Every answer makes a move. -/
theorem moves_of_answer (h : post.answer stores waiting reply = some out) :
    post.Moves stores waiting out := by
  cases hreply : reply.applied with
  | false =>
    obtain ⟨hactive, rfl⟩ := answer_of_not_applied h hreply
    exact .aborted hactive
  | true =>
    obtain ⟨now, out', hout', ⟨-, rfl⟩ | ⟨-, rfl⟩⟩ := answer_of_applied h hreply
    · exact .proceeds (proceeds_of_proceed hout')
    · exact .abortedAfter (proceeds_of_proceed hout')

end Post

namespace Sys

/-! ### Fields of updated states -/

section Fields

variable (s : Sys) (i : ℕ) (queue : String) (state : QueueState) (stores : Stores) (job : Job)
  (post : Post) (out : Post.Outcome) (requeue : Requeue)

@[simp] theorem stores_redis : s.stores.redis = s.redis := rfl
@[simp] theorem stores_db : s.stores.db = s.db := rfl

@[simp] theorem setJob_redis : (s.setJob i stores job).redis = stores.redis := rfl
@[simp] theorem setJob_db : (s.setJob i stores job).db = stores.db := rfl
@[simp] theorem setJob_jobs : (s.setJob i stores job).jobs = s.jobs.set i job := rfl
@[simp] theorem setJob_posts : (s.setJob i stores job).posts = s.posts := rfl
@[simp] theorem setJob_requeues : (s.setJob i stores job).requeues = s.requeues := rfl
@[simp] theorem setJob_enqueued : (s.setJob i stores job).enqueued = s.enqueued := rfl

@[simp] theorem spawn_redis :
    (s.spawn queue state job).redis = s.redis.modifyQueue queue fun _ => state := rfl
@[simp] theorem spawn_db : (s.spawn queue state job).db = s.db := rfl
@[simp] theorem spawn_jobs : (s.spawn queue state job).jobs = s.jobs ++ [job] := rfl
@[simp] theorem spawn_posts : (s.spawn queue state job).posts = s.posts := rfl
@[simp] theorem spawn_requeues : (s.spawn queue state job).requeues = s.requeues := rfl
@[simp] theorem spawn_enqueued : (s.spawn queue state job).enqueued = s.enqueued := rfl

@[simp] theorem setPost_redis : (s.setPost i post out).redis = out.stores.redis := rfl
@[simp] theorem setPost_db : (s.setPost i post out).db = out.stores.db := rfl
@[simp] theorem setPost_jobs : (s.setPost i post out).jobs = s.jobs := rfl
@[simp] theorem setPost_posts : (s.setPost i post out).posts = s.posts.set i out.post := rfl
@[simp] theorem setPost_requeues : (s.setPost i post out).requeues = s.requeues := rfl
@[simp] theorem setPost_enqueued :
    (s.setPost i post out).enqueued =
      s.enqueued ++ (out.sent.map fun e => (post.req.queue, e)).toList := rfl

@[simp] theorem setRequeue_redis : (s.setRequeue i stores requeue).redis = stores.redis := rfl
@[simp] theorem setRequeue_db : (s.setRequeue i stores requeue).db = stores.db := rfl
@[simp] theorem setRequeue_jobs : (s.setRequeue i stores requeue).jobs = s.jobs := rfl
@[simp] theorem setRequeue_posts : (s.setRequeue i stores requeue).posts = s.posts := rfl
@[simp] theorem setRequeue_requeues :
    (s.setRequeue i stores requeue).requeues = s.requeues.set i requeue := rfl
@[simp] theorem setRequeue_enqueued :
    (s.setRequeue i stores requeue).enqueued = s.enqueued := rfl

end Fields

/-- The job a delivery starts. -/
def deliveredJob (workerId : String) (leaseMs : ℕ+) (queue : String) (msgId : ℕ)
    (envelope : TaskEnvelope) (pc : Pc) : Job :=
  { workerId := workerId
    leaseMs := leaseMs
    queue := queue
    msgId := msgId
    envelope := envelope
    pc := pc }

/-- The moves of the system and what each writes. -/
inductive Moves (s : Sys) : Action → Sys → Prop
  | job {a : Action} {i : ℕ} {job job' : Job} {stores' : Stores}
      (ha : (∃ reply, a = .jobStep i reply ∧ (reply.applied = false → stores' = s.stores)) ∨
        (∃ outcome, a = .handler i outcome) ∧ stores' = s.stores)
      (hjob : s.jobs[i]? = some job) (h : job.Moves s.stores s.locks stores' job') :
      Moves s a (s.setJob i stores' job')
  | delivered {workerId : String} {leaseMs : ℕ+} {queue : String} {envelope : TaskEnvelope}
      (hentry : (s.redis.queues queue).stream[(s.redis.queues queue).delivered]? = some envelope) :
      Moves s (.deliver workerId leaseMs queue)
        (s.spawn queue
          { s.redis.queues queue with
            delivered := (s.redis.queues queue).delivered + 1
            pending := (s.redis.queues queue).pending ++
              [⟨(s.redis.queues queue).delivered, workerId⟩] }
          (deliveredJob workerId leaseMs queue (s.redis.queues queue).delivered envelope
            (.execute .acquireLease)))
  | adopted {workerId : String} {leaseMs : ℕ+} {queue : String} {msgId : ℕ}
      {envelope : TaskEnvelope} (hpending : ∃ p ∈ (s.redis.queues queue).pending, p.id = msgId)
      (hentry : (s.redis.queues queue).stream[msgId]? = some envelope) :
      Moves s (.adopt workerId leaseMs queue msgId)
        (s.spawn queue
          { s.redis.queues queue with
            pending := (s.redis.queues queue).pending.map fun p =>
              if p.id = msgId then { p with consumer := workerId } else p }
          (deliveredJob workerId leaseMs queue msgId envelope .closePrior))
  | posted {req : CreateTaskRequest} {taskId : Uuid} (hfresh : s.Fresh taskId) :
      Moves s (.post req taskId) { s with posts := s.posts ++ [Post.begin req taskId] }
  | post {i : ℕ} {reply : Reply} {post : Post} {out : Post.Outcome}
      (ha : reply.applied = false → out.stores = s.stores)
      (hpost : s.posts[i]? = some post) (h : post.Moves s.stores s.waiting out) :
      Moves s (.postStep i reply) (s.setPost i post out)
  | produced {queue : String} {envelope : TaskEnvelope} {runAt : Option ℚ}
      {f : QueueState → QueueState} (hfresh : s.Fresh envelope.taskId)
      (hf : f = (·.publish envelope) ∨ ∃ at_, f = (·.schedule envelope at_)) :
      Moves s (.produce queue envelope runAt)
        { s with
          redis := s.redis.modifyQueue queue f
          enqueued := s.enqueued ++ [(queue, envelope)] }
  | requeued {queue : String} {taskIds : List Uuid} :
      Moves s (.requeue queue taskIds)
        { s with requeues := s.requeues ++ [{ queue := queue, pc := .next taskIds }] }
  | requeue {i : ℕ} {reply : Reply} {requeue requeue' : Requeue} {stores' : Stores}
      (ha : reply.applied = false → stores' = s.stores)
      (hrequeue : s.requeues[i]? = some requeue)
      (h : requeue.Moves s.stores s.locks stores' requeue') :
      Moves s (.requeueStep i reply) (s.setRequeue i stores' requeue')
  | cancelled {taskId : Uuid} : Moves s (.cancel taskId) { s with db := s.db.cancelTask taskId }
  /-- a heartbeat or an expiry -/
  | leases {a : Action} {store : LeaseStore}
      (ha : (∃ i, a = .heartbeat i) ∨ ∃ taskText, a = .expire taskText)
      (hseq : store.fenceSeq = s.redis.leaseStore.fenceSeq) :
      Moves s a { s with redis := s.redis.withLeases store }
  | promoted {queue : String} {now : ℚ} :
      Moves s (.promote queue now)
        { s with redis := s.redis.modifyQueue queue (·.promoteScheduled now) }

variable {s s' : Sys} {a : Action}

theorem moves_of_stepJob {i : ℕ} {job : Job} {reply : Reply} (hjob : s.jobs[i]? = some job)
    (h : s.stepJob i job reply = some s') : s.Moves (.jobStep i reply) s' := by
  cases reply with
  | ok now draw =>
    obtain ⟨out, hout, rfl⟩ := Option.map_eq_some_iff.mp h
    exact .job (Or.inl ⟨_, rfl, by simp [Reply.applied]⟩) hjob
      (.proceeds (Job.proceeds_of_proceed hout))
  | raise applied now draw message =>
    cases applied with
    | false =>
      obtain ⟨failed, hfailed, rfl⟩ := Option.map_eq_some_iff.mp h
      exact .job (Or.inl ⟨_, rfl, fun _ => rfl⟩) hjob (Job.moves_of_raised hfailed)
    | true =>
      obtain ⟨out, hout, hrest⟩ := Option.bind_eq_some_iff.mp h
      obtain ⟨failed, hfailed, rfl⟩ := Option.map_eq_some_iff.mp hrest
      exact .job (Or.inl ⟨_, rfl, by simp [Reply.applied]⟩) hjob
        (Job.moves_of_raisedAfter hout hfailed)
  | crash =>
    simp only [stepJob] at h
    split_ifs at h with hactive
    obtain rfl := Option.some.inj h
    exact .job (Or.inl ⟨_, rfl, fun _ => rfl⟩) hjob (.failed hactive .ended)

theorem moves_of_stepPost {i : ℕ} {post : Post} {reply : Reply} (hpost : s.posts[i]? = some post)
    (h : s.stepPost i post reply = some s') : s.Moves (.postStep i reply) s' := by
  obtain ⟨out, hout, rfl⟩ := Option.map_eq_some_iff.mp h
  refine .post (fun hreply => ?_) hpost (Post.moves_of_answer hout)
  obtain ⟨-, rfl⟩ := Post.answer_of_not_applied hout hreply
  rfl

theorem moves_of_stepRequeue {i : ℕ} {requeue : Requeue} {reply : Reply}
    (hrequeue : s.requeues[i]? = some requeue) (h : s.stepRequeue i requeue reply = some s') :
    s.Moves (.requeueStep i reply) s' := by
  cases reply with
  | ok now draw =>
    obtain ⟨out, hout, rfl⟩ := Option.map_eq_some_iff.mp h
    exact .requeue (by simp [Reply.applied]) hrequeue
      (.proceeds (Requeue.proceeds_of_proceed hout))
  | raise applied now draw message =>
    cases applied with
    | false =>
      obtain ⟨failed, hfailed, rfl⟩ := Option.map_eq_some_iff.mp h
      obtain ⟨pc, rfl, hpc⟩ := Requeue.raised_cases hfailed
      exact .requeue (fun _ => rfl) hrequeue (.failed (Or.inl rfl) hpc)
    | true =>
      obtain ⟨out, hout, hrest⟩ := Option.bind_eq_some_iff.mp h
      obtain ⟨failed, hfailed, rfl⟩ := Option.map_eq_some_iff.mp hrest
      obtain ⟨pc, rfl, hpc⟩ := Requeue.raised_cases hfailed
      exact .requeue (by simp [Reply.applied]) hrequeue
        (.failed (Or.inr ⟨_, Requeue.proceeds_of_proceed hout⟩) hpc)
  | crash =>
    simp only [stepRequeue] at h
    split_ifs at h with hended
    obtain rfl := Option.some.inj h
    exact .requeue (fun _ => rfl) hrequeue (.failed (Or.inl rfl) (Or.inl rfl))

/-- Every step is one of the listed moves. -/
theorem moves_of_step (h : s.step a = some s') : s.Moves a s' := by
  cases a with
  | post req taskId =>
    simp only [step] at h
    split_ifs at h with hfresh
    obtain rfl := Option.some.inj h
    exact .posted hfresh
  | postStep i reply =>
    obtain ⟨post, hpost, hstep⟩ := Option.bind_eq_some_iff.mp h
    exact moves_of_stepPost hpost hstep
  | produce queue envelope runAt =>
    simp only [step] at h
    split_ifs at h with hfresh
    obtain rfl := Option.some.inj h
    cases runAt with
    | none => exact .produced hfresh (Or.inl rfl)
    | some at_ => exact .produced hfresh (Or.inr ⟨at_, rfl⟩)
  | requeue queue taskIds =>
    obtain rfl := Option.some.inj h
    exact .requeued
  | requeueStep i reply =>
    obtain ⟨requeue, hrequeue, hstep⟩ := Option.bind_eq_some_iff.mp h
    exact moves_of_stepRequeue hrequeue hstep
  | cancel taskId =>
    simp only [step] at h
    split_ifs at h with hlock
    obtain rfl := Option.some.inj h
    exact .cancelled
  | deliver workerId leaseMs queue =>
    obtain ⟨⟨state, msgId, envelope⟩, hlease, rfl⟩ := Option.map_eq_some_iff.mp h
    obtain ⟨rfl, hentry, rfl⟩ := QueueState.lease_eq_some hlease
    exact .delivered hentry
  | adopt workerId leaseMs queue msgId =>
    obtain ⟨⟨state, envelope⟩, hreclaim, rfl⟩ := Option.map_eq_some_iff.mp h
    obtain ⟨hpending, hentry, rfl⟩ := QueueState.reclaim_eq_some hreclaim
    exact .adopted hpending hentry
  | jobStep i reply =>
    obtain ⟨job, hjob, hstep⟩ := Option.bind_eq_some_iff.mp h
    exact moves_of_stepJob hjob hstep
  | handler i outcome =>
    obtain ⟨job, hjob, hrest⟩ := Option.bind_eq_some_iff.mp h
    obtain ⟨job', hends, rfl⟩ := Option.map_eq_some_iff.mp hrest
    exact .job (Or.inr ⟨⟨outcome, rfl⟩, rfl⟩) hjob (Job.moves_of_handlerEnds hends)
  | heartbeat i =>
    obtain ⟨job, hjob, hrest⟩ := Option.bind_eq_some_iff.mp h
    obtain ⟨stores, hstores, rfl⟩ := Option.map_eq_some_iff.mp hrest
    simp only [Job.heartbeat] at hstores
    split_ifs at hstores with hpc
    -- a heartbeat extends a lease and leaves the counter alone
    obtain rfl := Option.some.inj hstores
    exact .leases (Or.inl ⟨i, rfl⟩) (by simp)
  | promote queue now =>
    obtain rfl := Option.some.inj h
    exact .promoted
  | expire taskText =>
    obtain rfl := Option.some.inj h
    exact .leases (Or.inr ⟨taskText, rfl⟩) rfl

/-- What a job's call that returns has done. -/
theorem proceed_of_step {i : ℕ} {job : Job} {now draw : ℚ} (hjob : s.jobs[i]? = some job)
    (h : s.step (.jobStep i (.ok now draw)) = some s') :
    ∃ out, job.proceed s.stores s.locks now draw = some out ∧ s' = s.setJob i out.1 out.2 := by
  obtain ⟨job₁, hjob₁, hrest⟩ := Option.bind_eq_some_iff.mp h
  obtain rfl := Option.mem_unique hjob hjob₁
  obtain ⟨out, hout, hset⟩ := Option.map_eq_some_iff.mp hrest
  exact ⟨out, hout, hset.symm⟩

/-- What the end of a handler has done. -/
theorem handlerEnds_of_step {i : ℕ} {job : Job} {outcome : HandlerOutcome}
    (hjob : s.jobs[i]? = some job) (h : s.step (.handler i outcome) = some s') :
    ∃ job', job.handlerEnds outcome = some job' ∧ s' = s.setJob i s.stores job' := by
  obtain ⟨job₁, hjob₁, hrest⟩ := Option.bind_eq_some_iff.mp h
  obtain rfl := Option.mem_unique hjob hjob₁
  obtain ⟨job', hends, hset⟩ := Option.map_eq_some_iff.mp hrest
  exact ⟨job', hends, hset.symm⟩

/-- A call that may return makes a step. -/
theorem step_of_proceed {i : ℕ} {job : Job} {now draw : ℚ} {out : Stores × Job}
    (hjob : s.jobs[i]? = some job) (hout : job.proceed s.stores s.locks now draw = some out) :
    s.step (.jobStep i (.ok now draw)) = some (s.setJob i out.1 out.2) := by
  simp [Sys.step, hjob, stepJob, hout]

/-- The transaction that records an attempt commits when the task has a row, the row is not
locked and the number is free. -/
theorem step_of_recordAttempt {i : ℕ} {job : Job} {now draw : ℚ} (hjob : s.jobs[i]? = some job)
    (hpc : job.pc = .execute .recordAttempt)
    (hlock : s.locks.updating job.envelope.taskId = false)
    (htask : ∃ task ∈ s.db.tasks, task.id = job.envelope.taskId)
    (hnew : ∀ other ∈ s.db.attempts,
      ¬ (other.taskId = job.envelope.taskId ∧ other.attemptNo = job.envelope.attemptNo)) :
    s.step (.jobStep i (.ok now draw)) = some (s.setJob i
      { s.stores with
        db := Db.updateTaskState { s.db with attempts := s.db.attempts ++ [job.attemptRow] }
          job.envelope.taskId .leased (some job.envelope.attemptNo) }
      (job.goto .startHandler)) := by
  have hcreate : s.db.createAttempt job.attemptRow =
      some { s.db with attempts := s.db.attempts ++ [job.attemptRow] } := if_pos ⟨htask, hnew⟩
  have hproceed : job.proceed s.stores s.locks now draw =
      some ({ s.stores with
          db := Db.updateTaskState { s.db with attempts := s.db.attempts ++ [job.attemptRow] }
            job.envelope.taskId .leased (some job.envelope.attemptNo) },
        job.goto .startHandler) := by
    simp [Job.proceed, hpc, Job.executeOk, hlock, hcreate]
  exact step_of_proceed hjob hproceed

/-! ### The workers' share of a step -/

/-- Seen from the workers, a step is a move of one job, the birth of one, or something
that touches neither the jobs nor what they have recorded. -/
theorem Moves.worker_cases (h : s.Moves a s') :
    (∃ i job job' stores',
      ((∃ reply, a = .jobStep i reply ∧ (reply.applied = false → stores' = s.stores)) ∨
        (∃ outcome, a = .handler i outcome) ∧ stores' = s.stores) ∧
      s.jobs[i]? = some job ∧ job.Moves s.stores s.locks stores' job' ∧
      s' = s.setJob i stores' job') ∨
    (∃ job : Job, job.Starting ∧ s'.jobs = s.jobs ++ [job] ∧ s'.db = s.db ∧
      s'.redis.leaseStore = s.redis.leaseStore) ∨
    (s'.jobs = s.jobs ∧ s'.db.effects = s.db.effects ∧ s'.db.attempts = s.db.attempts ∧
      s'.redis.leaseStore.fenceSeq = s.redis.leaseStore.fenceSeq) := by
  cases h with
  | job ha hjob h => exact Or.inl ⟨_, _, _, _, ha, hjob, h, rfl⟩
  | delivered =>
    exact Or.inr (Or.inl ⟨_, ⟨Or.inr rfl, rfl, rfl, rfl, rfl⟩, rfl, rfl, rfl⟩)
  | adopted =>
    exact Or.inr (Or.inl ⟨_, ⟨Or.inl rfl, rfl, rfl, rfl, rfl⟩, rfl, rfl, rfl⟩)
  | post ha hpost h =>
    refine Or.inr (Or.inr ⟨rfl, ?_, ?_, ?_⟩)
    · rcases h.db_cases with hdb | ⟨-, hdb⟩ <;> simp [hdb]
    · rcases h.db_cases with hdb | ⟨-, hdb⟩ <;> simp [hdb]
    · obtain ⟨hredis, -⟩ | ⟨e, -, -, hredis | ⟨at_, hredis⟩⟩ := h.sent_cases <;> simp [hredis]
  | requeue ha hrequeue h =>
    -- the final `COMMIT` writes states, a publication the queue
    have hframe := foldl_updateTaskState_frame
    refine Or.inr (Or.inr ⟨rfl, ?_, ?_, ?_⟩)
    · rcases h.db_cases with hdb | hdb
      · simp [hdb]
      · simpa [hdb] using (hframe _ _ _ _).1
    · rcases h.db_cases with hdb | hdb
      · simp [hdb]
      · simpa [hdb] using (hframe _ _ _ _).2.1
    · obtain hredis | ⟨e, rest, -, hredis⟩ := h.redis_cases <;> simp [hredis]
  | leases ha hseq => exact Or.inr (Or.inr ⟨rfl, rfl, rfl, hseq⟩)
  | posted | produced | requeued | cancelled | promoted =>
    exact Or.inr (Or.inr ⟨rfl, rfl, rfl, rfl⟩)

/-- No step changes or removes a committed effect. -/
theorem effects_grow_of_step (h : s.step a = some s') : s.db.effects <+: s'.db.effects := by
  rcases (moves_of_step h).worker_cases with
    ⟨i, job, job', stores', -, -, hmove, rfl⟩ | ⟨job, -, -, hdb, -⟩ | ⟨-, heffects, -⟩
  · exact hmove.effects_grow
  · rw [hdb]
  · rw [heffects]

/-- Committed effects are never changed or removed, however long the run. -/
theorem effects_grow_of_reaches (h : Transition.Reaches step s s') :
    s.db.effects <+: s'.db.effects := by
  apply Transition.ReachesWhen.relation (R := fun s s' : Sys => s.db.effects <+: s'.db.effects)
    ?_ ?_ ?_ h
  · exact fun s => List.prefix_refl _
  · exact fun s t u hst htu => hst.trans htu
  · exact fun s a t _ hstep => effects_grow_of_step hstep

end Sys

end Dtq
