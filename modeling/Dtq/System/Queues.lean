import Dtq.System.Moves

/-!
# What happens to a queue in a step

The keys of one queue change in few ways, and each has one author: a producer, a requeue
request, a worker's poll or reclaim loop, a job, or the scheduler. This is the view of a
step that invariants about messages are proved from.

## Main results

* `Sys.Moves.queue_cases` — what a step does to a queue, and on whose behalf
* `Sys.Moves.holds_cases` — where an envelope on a queue comes from
-/

set_option autoImplicit false

namespace Dtq

namespace QueueState

/-- The envelope is somewhere in the keys of the queue: on the stream, delivered or not,
in the schedule or among the dead letters. -/
def Holds (q : QueueState) (e : TaskEnvelope) : Prop :=
  e ∈ q.stream ∨ (∃ m ∈ q.sched, m.1 = e) ∨ ∃ d ∈ q.dlq, d.1 = e

/-- The queue after an envelope was put on it. -/
inductive Added (q : QueueState) (e : TaskEnvelope) : QueueState → Prop
  | published : Added q e (q.publish e)
  | scheduled (runAt : ℚ) : Added q e (q.schedule e runAt)

theorem Added.holds {q q' : QueueState} {e e' : TaskEnvelope} (h : q.Added e q')
    (hholds : q'.Holds e') : q.Holds e' ∨ e' = e := by
  cases h with
  | published =>
    rcases hholds with hmem | hrest
    · rcases List.mem_append.mp hmem with hmem | hmem
      · exact Or.inl (Or.inl hmem)
      · exact Or.inr (List.mem_singleton.mp hmem)
    · exact Or.inl (Or.inr hrest)
  | scheduled runAt =>
    rcases hholds with hmem | ⟨m, hm, rfl⟩ | hdlq
    · exact Or.inl (Or.inl hmem)
    · rcases mem_zadd.mp hm with rfl | ⟨hm, -⟩
      · exact Or.inr rfl
      · exact Or.inl (Or.inr (Or.inl ⟨m, hm, rfl⟩))
    · exact Or.inl (Or.inr (Or.inr hdlq))

theorem holds_of_holds_promoteScheduled {q : QueueState} {now : ℚ} {e : TaskEnvelope}
    (h : (q.promoteScheduled now).Holds e) : q.Holds e := by
  rw [promoteScheduled_eq] at h
  rcases h with hmem | ⟨m, hm, rfl⟩ | hdlq
  · rcases List.mem_append.mp hmem with hmem | hmem
    · exact Or.inl hmem
    · obtain ⟨score, hscore⟩ := mem_sched_of_mem_due hmem
      exact Or.inr (Or.inl ⟨_, hscore, rfl⟩)
  · exact Or.inr (Or.inl ⟨m, (List.mem_filter.mp hm).1, rfl⟩)
  · exact Or.inr (Or.inr hdlq)

end QueueState

namespace Sys

/-- The next move of some request may be to hand the envelope to the broker. -/
def HandsOver (s : Sys) (e : TaskEnvelope) : Prop :=
  ∃ (i : ℕ) (post : Post) (out : Post.Outcome), s.posts[i]? = some post ∧
    post.Moves s.stores s.waiting out ∧ out.sent = some e

/-- What a step from `s` to `s'` makes of the keys of a queue. -/
inductive QueueMoves (s : Sys) (a : Action) (s' : Sys) (queue : String) : QueueState → Prop
  | same : QueueMoves s a s' queue (s.redis.queues queue)
  /-- a request or another producer puts an envelope on the queue -/
  | enqueued {e : TaskEnvelope} {q' : QueueState} (hadded : (s.redis.queues queue).Added e q')
      (henqueued : s'.enqueued = s.enqueued ++ [(queue, e)])
      (hfrom : s.HandsOver e ∨ s.Fresh e.taskId ∧ ∃ runAt, a = .produce queue e runAt) :
      QueueMoves s a s' queue q'
  | requeued {i : ℕ} {reply : Reply} {requeue : Requeue} {e : TaskEnvelope} {rest : List Uuid}
      (ha : a = .requeueStep i reply) (happlied : reply.applied = true)
      (hrequeue : s.requeues[i]? = some requeue) (hqueue : requeue.queue = queue)
      (hpc : requeue.pc = .publish e rest) :
      QueueMoves s a s' queue ((s.redis.queues queue).publish e)
  | delivered {workerId : String} {job : Job} (hjob : job.Starting)
      (hjobs : s'.jobs = s.jobs ++ [job])
      (hmsg : job.queue = queue ∧ job.msgId = (s.redis.queues queue).delivered)
      (hentry : (s.redis.queues queue).stream[(s.redis.queues queue).delivered]? =
        some job.envelope) :
      QueueMoves s a s' queue
        { s.redis.queues queue with
          delivered := (s.redis.queues queue).delivered + 1
          pending := (s.redis.queues queue).pending ++
            [⟨(s.redis.queues queue).delivered, workerId⟩] }
  | adopted {workerId : String} {job : Job} (hjob : job.Starting)
      (hjobs : s'.jobs = s.jobs ++ [job]) (hqueue : job.queue = queue)
      (hpending : ∃ p ∈ (s.redis.queues queue).pending, p.id = job.msgId)
      (hentry : (s.redis.queues queue).stream[job.msgId]? = some job.envelope) :
      QueueMoves s a s' queue
        { s.redis.queues queue with
          pending := (s.redis.queues queue).pending.map fun p =>
            if p.id = job.msgId then { p with consumer := workerId } else p }
  | acked {job : Job} (hjob : job ∈ s.jobs) (hqueue : job.queue = queue)
      (hpc : job.pc = .ack ∨ ∃ text, job.pc = .returned true text) :
      QueueMoves s a s' queue ((s.redis.queues queue).ack job.msgId)
  | retried {job : Job} {text : Option String} {runAt : ℚ} (hjob : job ∈ s.jobs)
      (hqueue : job.queue = queue) (hpc : job.pc = .returned false text)
      (hretry : job.retries text = true) :
      QueueMoves s a s' queue ((s.redis.queues queue).schedule job.envelope.nextAttempt runAt)
  | deadLettered {job : Job} {text : Option String} {reason : String} (hjob : job ∈ s.jobs)
      (hqueue : job.queue = queue) (hpc : job.pc = .returned false text) :
      QueueMoves s a s' queue ((s.redis.queues queue).deadLetter job.envelope reason)
  | promoted {now : ℚ} :
      QueueMoves s a s' queue ((s.redis.queues queue).promoteScheduled now)

variable {s s' : Sys} {a : Action}

/-- What a step does to a queue, and on whose behalf. -/
theorem Moves.queue_cases (h : s.Moves a s') (queue : String) :
    QueueMoves s a s' queue (s'.redis.queues queue) := by
  -- a change of one queue leaves the others alone
  have hmodify : ∀ {t : Sys} {r : Redis} {name : String} {f : QueueState → QueueState},
      r.queues = (s.redis.modifyQueue name f).queues →
      (name = queue → QueueMoves s a t queue (f (s.redis.queues queue))) →
      QueueMoves s a t queue (r.queues queue) := by
    intro t r name f hr hself
    rw [hr]
    by_cases hname : name = queue
    · subst hname
      rw [Redis.modifyQueue_self]
      exact hself rfl
    · rw [Redis.modifyQueue_of_ne _ _ (Ne.symm hname)]
      exact .same
  cases h with
  | @job _ i job job' stores' ha hjob h =>
    have hmem := List.mem_of_getElem? hjob
    -- a job acknowledges, schedules a retry or files a dead letter
    obtain hsame | ⟨f, hf, hcases⟩ := h.queues_cases
    · rw [setJob_redis, hsame]
      exact .same
    · refine hmodify hf fun hqueue => ?_
      obtain ⟨hpc, rfl⟩ | ⟨text, runAt, hpc, hretry, rfl⟩ | ⟨text, hpc, rfl⟩ := hcases
      · exact .acked hmem hqueue hpc
      · exact .retried hmem hqueue hpc hretry
      · exact .deadLettered hmem hqueue hpc
  | delivered hentry =>
    refine hmodify rfl fun hqueue => ?_
    subst hqueue
    exact .delivered ⟨Or.inr rfl, rfl, rfl, rfl, rfl⟩ rfl ⟨rfl, rfl⟩ hentry
  | @adopted workerId leaseMs name msgId envelope hpending hentry =>
    refine hmodify rfl fun hqueue => ?_
    subst hqueue
    have hnew : (deliveredJob workerId leaseMs name msgId envelope .closePrior).Starting :=
      ⟨Or.inl rfl, rfl, rfl, rfl, rfl⟩
    exact .adopted hnew rfl rfl hpending hentry
  | @post i reply post out ha hpost h =>
    obtain ⟨hredis, -⟩ | ⟨e, hsent, -, hredis⟩ := h.sent_cases
    · rw [setPost_redis, hredis]
      exact .same
    · have henqueued : post.req.queue = queue →
          (s.setPost i post out).enqueued = s.enqueued ++ [(queue, e)] := by
        intro hqueue
        simp [hsent, hqueue]
      have hhands : s.HandsOver e := ⟨i, post, out, hpost, h, hsent⟩
      rcases hredis with hredis | ⟨at_, hredis⟩
      · exact hmodify (congrArg Redis.queues hredis) fun hqueue =>
          .enqueued .published (henqueued hqueue) (Or.inl hhands)
      · exact hmodify (congrArg Redis.queues hredis) fun hqueue =>
          .enqueued (.scheduled at_) (henqueued hqueue) (Or.inl hhands)
  | produced hfresh hf =>
    refine hmodify rfl fun hqueue => ?_
    subst hqueue
    obtain rfl | ⟨at_, rfl⟩ := hf
    · exact .enqueued .published rfl (Or.inr ⟨hfresh, _, rfl⟩)
    · exact .enqueued (.scheduled at_) rfl (Or.inr ⟨hfresh, _, rfl⟩)
  | @requeue i reply requeue requeue' stores' ha hrequeue h =>
    cases happlied : reply.applied with
    | false =>
      rw [setRequeue_redis, ha happlied]
      exact .same
    | true =>
      obtain hredis | ⟨e, rest, hpc, hredis⟩ := h.redis_cases
      · rw [setRequeue_redis, hredis]
        exact .same
      · exact hmodify (congrArg Redis.queues hredis) fun hqueue =>
          .requeued rfl happlied hrequeue hqueue hpc
  | promoted => exact hmodify rfl fun _ => .promoted
  | posted | requeued | cancelled | leases => exact .same

/-- Where an envelope on a queue comes from: it was there, a producer or a requeue request
has put it there, or it is a job's. -/
theorem Moves.holds_cases (h : s.Moves a s') {queue : String} {e : TaskEnvelope}
    (hholds : (s'.redis.queues queue).Holds e) :
    (s.redis.queues queue).Holds e ∨
      s'.enqueued = s.enqueued ++ [(queue, e)] ∨
      (∃ requeue ∈ s.requeues, requeue.queue = queue ∧ ∃ rest, requeue.pc = .publish e rest) ∨
      ∃ job ∈ s.jobs, job.queue = queue ∧ job.Active ∧
        (e = job.envelope ∨ e = job.envelope.nextAttempt ∧
          ((job.envelope.attempt + 1 : ℕ) : ℤ) < job.envelope.retryPolicy.maxAttempts) := by
  have hmoves := h.queue_cases queue
  generalize s'.redis.queues queue = q' at hmoves hholds
  cases hmoves with
  | same => exact Or.inl hholds
  | enqueued hadded henqueued =>
    rcases hadded.holds hholds with hold | rfl
    · exact Or.inl hold
    · exact Or.inr (Or.inl henqueued)
  | requeued ha happlied hrequeue hqueue hpc =>
    rcases QueueState.Added.published.holds hholds with hold | rfl
    · exact Or.inl hold
    · exact Or.inr (Or.inr (Or.inl ⟨_, List.mem_of_getElem? hrequeue, hqueue, _, hpc⟩))
  | retried hjob hqueue hpc hretry =>
    rcases (QueueState.Added.scheduled _).holds hholds with hold | rfl
    · exact Or.inl hold
    · exact Or.inr (Or.inr (Or.inr ⟨_, hjob, hqueue, by simp [Job.Active, hpc],
        Or.inr ⟨rfl, lt_maxAttempts_of_isRetryable hretry⟩⟩))
  | deadLettered hjob hqueue hpc =>
    rcases hholds with hmem | hsched | ⟨d, hd, rfl⟩
    · exact Or.inl (Or.inl hmem)
    · exact Or.inl (Or.inr (Or.inl hsched))
    · rcases List.mem_append.mp hd with hd | hd
      · exact Or.inl (Or.inr (Or.inr ⟨d, hd, rfl⟩))
      · rw [List.mem_singleton.mp hd]
        exact Or.inr (Or.inr (Or.inr ⟨_, hjob, hqueue, by simp [Job.Active, hpc], Or.inl rfl⟩))
  | promoted => exact Or.inl (QueueState.holds_of_holds_promoteScheduled hholds)
  | delivered | adopted | acked => exact Or.inl hholds

/-- An envelope that a producer has just put on record is on its queue. -/
theorem Moves.enqueued_cases (h : s.Moves a s') {queue : String} {e : TaskEnvelope}
    (hnew : (queue, e) ∈ s'.enqueued) :
    (queue, e) ∈ s.enqueued ∨ (s.redis.queues queue).Added e (s'.redis.queues queue) := by
  cases h with
  | @post i reply post out ha hpost h =>
    obtain ⟨-, hnone⟩ | ⟨e', hsent, -, hredis⟩ := h.sent_cases
    · left
      simpa [hnone] using hnew
    · rw [setPost_enqueued, hsent, List.mem_append] at hnew
      refine hnew.imp_right fun hmem => ?_
      simp only [Option.map_some, Option.toList_some, List.mem_singleton, Prod.mk.injEq] at hmem
      obtain ⟨rfl, rfl⟩ := hmem
      rw [setPost_redis]
      rcases hredis with hredis | ⟨at_, hredis⟩ <;> rw [hredis, Redis.modifyQueue_self]
      · exact .published
      · exact .scheduled at_
  | produced hfresh hf =>
    refine (List.mem_append.mp hnew).imp_right fun hmem => ?_
    simp only [List.mem_singleton, Prod.mk.injEq] at hmem
    obtain ⟨rfl, rfl⟩ := hmem
    rw [Redis.modifyQueue_self]
    obtain rfl | ⟨at_, rfl⟩ := hf
    · exact .published
    · exact .scheduled at_
  | job | delivered | adopted | posted | requeued | requeue | cancelled | leases | promoted =>
    exact Or.inl hnew

end Sys

end Dtq
