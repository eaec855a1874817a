import Dtq.System.Contents
import Dtq.System.Requeues

/-!
# Not before its time

A task with a `run_at` in the future is put into the schedule, and a tick of the scheduler moves
it to the stream once its time has come. Until then nobody can execute it: there is no entry to
deliver or to adopt, and a tick whose clock shows an earlier time leaves it where it is.

The invariant says where the task may be while its time has not come: in a request that will
schedule it, or in a schedule, with that time or a later one.

## Main results

* `Sys.Waits.step` — a step keeps a task waiting
* `Sys.not_started_early` — no execution of a scheduled task begins before its time
-/

set_option autoImplicit false

namespace Dtq

/-- No clock that decides about the schedule shows the time or a later one: neither the one that
`create_task` compares `run_at` with, nor the one of a scheduler tick. -/
def Action.ReadsBefore (time : ℚ) : Action → Prop
  | .postStep _ (.ok now _) | .postStep _ (.raise true now _ _) | .promote _ now => now < time
  | _ => True

namespace Post

variable {post : Post} {stores : Stores} {waiting : List TaskRow} {out : Outcome} {reply : Reply}
  {now time : ℚ} {runAt : DateTime}

/-- A request whose `run_at` is after the clock puts its envelope into the schedule, for that
time, and never comes to publish it. -/
theorem proceed_before (h : post.proceed stores waiting now = some out) (hlt : now < time)
    (hrunAt : post.req.runAt = some runAt) (htime : runAt.timestamp = some time)
    (hpc : ∀ e, post.pc ≠ .publish e) :
    (∀ e, out.post.pc ≠ .publish e) ∧
      (out.stores.redis = stores.redis ∨
        ∃ e, out.stores.redis = stores.redis.modifyQueue post.req.queue (·.schedule e time)) := by
  by_cases hdispatch : post.pc = .dispatch
  · simp only [proceed, hdispatch, hrunAt, DateTime.gtNow, htime, Option.map_some, hlt,
      decide_true] at h
    obtain rfl := Option.some.inj h
    exact ⟨by simp [created, goto], Or.inr ⟨_, rfl⟩⟩
  · cases proceeds_of_proceed h with
    | prepared _ hpc' | scheduled _ _ _ hpc' | naive _ hpc' => exact absurd hpc' hdispatch
    | published e hpc' => exact absurd hpc' (hpc e)
    | _ => exact ⟨by simp [goto], Or.inl rfl⟩

/-- So does any answer to its calls. -/
theorem answer_before (h : post.answer stores waiting reply = some out)
    {i : ℕ} (hreads : (Action.postStep i reply).ReadsBefore time)
    (hrunAt : post.req.runAt = some runAt) (htime : runAt.timestamp = some time)
    (hpc : ∀ e, post.pc ≠ .publish e) :
    (∀ e, out.post.pc ≠ .publish e) ∧
      (out.stores.redis = stores.redis ∨
        ∃ e, out.stores.redis = stores.redis.modifyQueue post.req.queue (·.schedule e time)) := by
  cases hreply : reply.applied with
  | false =>
    obtain ⟨-, rfl⟩ := answer_of_not_applied h hreply
    exact ⟨by simp [goto], Or.inl rfl⟩
  | true =>
    obtain ⟨now, out', hout', ⟨⟨draw, rfl⟩, rfl⟩ | ⟨⟨draw, message, rfl⟩, rfl⟩⟩ :=
      answer_of_applied h hreply
    · exact proceed_before hout' hreads hrunAt htime hpc
    · exact ⟨by simp [goto], (proceed_before hout' hreads hrunAt htime hpc).2⟩

end Post

namespace Job

/-- The job has handed its message on and may have its acknowledgement left, or it is over. -/
def Done (job : Job) : Prop := job.pc = .ack ∨ job.pc = .ended

instance (job : Job) : Decidable job.Done := inferInstanceAs (Decidable (_ ∨ _))

variable {job job' : Job} {stores : Stores} {locks : Locks} {now draw : ℚ} {message : String}

/-- The job is done, or its next call schedules the retry. -/
def Yields (job : Job) : Prop :=
  job.Done ∨ ∃ text, job.pc = .returned false text ∧ job.retries text = true

theorem Yields.proceed {out : Stores × Job} (h : job.Yields)
    (hout : job.proceed stores locks now draw = some out) : out.2.Done := by
  rcases h with (hpc | hpc) | ⟨text, hpc, hretry⟩
  · simp only [Job.proceed, hpc] at hout
    obtain rfl := Option.some.inj hout
    exact Or.inr rfl
  · simp [Job.proceed, hpc] at hout
  · simp only [Job.proceed, hpc, hretry, if_true] at hout
    obtain ⟨delay, -, rfl⟩ := Option.map_eq_some_iff.mp hout
    exact Or.inl rfl

theorem Yields.raised (h : job.Yields) (hfailed : job.raised message = some job') :
    job'.pc = .ended := by
  rcases h with (hpc | hpc) | ⟨text, hpc, -⟩ <;> simp only [Job.raised, hpc] at hfailed
  · exact (Option.some.inj hfailed) ▸ rfl
  · simp at hfailed
  · exact (Option.some.inj hfailed) ▸ rfl

theorem Yields.not_handlerEnds (h : job.Yields) (outcome : HandlerOutcome) :
    job.handlerEnds outcome = none := by
  rcases h with (hpc | hpc) | ⟨text, hpc, -⟩ <;> cases outcome <;> simp [handlerEnds, hpc]

end Job

namespace QueueState

/-- The queue will not hand the task out before the time: from `base` on, which has not been
delivered, there is no entry of it on the stream, and in the schedule it has that time or a later
one. -/
structure Clear (q : QueueState) (base : ℕ) (taskId : Uuid) (time : ℚ) : Prop where
  base_le : base ≤ q.delivered
  stream : ∀ k e, base ≤ k → q.stream[k]? = some e → e.taskId ≠ taskId
  sched : ∀ m ∈ q.sched, m.1.taskId = taskId → time ≤ m.2

variable {q q' : QueueState} {e : TaskEnvelope} {base : ℕ} {taskId : Uuid} {time now runAt : ℚ}

theorem Clear.frame (h : q.Clear base taskId time) (hstream : q'.stream = q.stream)
    (hdelivered : q.delivered ≤ q'.delivered) (hsched : q'.sched = q.sched) :
    q'.Clear base taskId time where
  base_le := h.base_le.trans hdelivered
  stream k e hk he := h.stream k e hk (hstream ▸ he)
  sched := hsched ▸ h.sched

/-- New entries of other tasks. -/
theorem Clear.append (h : q.Clear base taskId time) {rest : List TaskEnvelope}
    (hrest : ∀ e ∈ rest, e.taskId ≠ taskId) :
    ({ q with stream := q.stream ++ rest } : QueueState).Clear base taskId time where
  base_le := h.base_le
  stream k e hk he := by
    by_cases hlt : k < q.stream.length
    · rw [List.getElem?_append_left hlt] at he
      exact h.stream k e hk he
    · rw [List.getElem?_append_right (Nat.not_lt.mp hlt)] at he
      exact hrest e (List.mem_of_getElem? he)
  sched := h.sched

theorem Clear.schedule (h : q.Clear base taskId time) (he : e.taskId = taskId → time ≤ runAt) :
    (q.schedule e runAt).Clear base taskId time where
  base_le := h.base_le
  stream := h.stream
  sched m hm hid := by
    rcases mem_zadd.mp hm with rfl | ⟨hold, -⟩
    · exact he hid
    · exact h.sched m hold hid

/-- A tick whose clock shows an earlier time moves other tasks only. -/
theorem Clear.promoteScheduled (h : q.Clear base taskId time) (hnow : now < time) :
    (q.promoteScheduled now).Clear base taskId time := by
  have hdue : ∀ e ∈ q.due now 100, e.taskId ≠ taskId := by
    intro e he hid
    obtain ⟨m, hm, rfl⟩ := List.mem_map.mp he
    obtain ⟨hsched, hle⟩ := List.mem_filter.mp (List.mem_of_mem_take hm)
    have hlater : time ≤ m.2 := h.sched m hsched hid
    exact absurd (of_decide_eq_true hle) (not_le.mpr (hnow.trans_le hlater))
  rw [promoteScheduled_eq]
  exact ⟨h.base_le, (h.append hdue).stream, fun m hm => h.sched m (List.mem_filter.mp hm).1⟩

end QueueState

/-- Changing one queue so that it stays clear keeps all queues clear. -/
theorem Redis.clear_modifyQueue {r : Redis} {base : String → ℕ} {taskId : Uuid} {time : ℚ}
    {name : String} {f : QueueState → QueueState}
    (h : ∀ queue, (r.queues queue).Clear (base queue) taskId time)
    (hf : (f (r.queues name)).Clear (base name) taskId time) (queue : String) :
    ((r.modifyQueue name f).queues queue).Clear (base queue) taskId time := by
  by_cases hname : queue = name
  · subst hname
    rw [modifyQueue_self]
    exact hf
  · rw [modifyQueue_of_ne _ _ hname]
    exact h queue

namespace Sys

/-- The task waits for its time: what is not over of it is in a request that will schedule it for
that time, or in a schedule, not before that time. On the streams it has entries before `base`
only. -/
structure Waits (s : Sys) (base : String → ℕ) (taskId : Uuid) (time : ℚ) : Prop where
  known : ¬ s.Fresh taskId
  posts : ∀ post ∈ s.posts, post.taskId = taskId → ¬ post.Ended →
    (∃ runAt, post.req.runAt = some runAt ∧ runAt.timestamp = some time) ∧
      ∀ e, post.pc ≠ .publish e
  jobs : ∀ job ∈ s.jobs, job.envelope.taskId = taskId → job.Done
  queues : ∀ queue, (s.redis.queues queue).Clear (base queue) taskId time

/-- The step neither publishes the task again nor reads a clock that shows its time. -/
def Before (taskId : Uuid) (time : ℚ) (s : Sys) (a : Action) : Prop :=
  a.ReadsBefore time ∧ ∀ e, s.Publishes a e → e.taskId ≠ taskId

/-- The step adopts an entry of the task. -/
def Adopts (taskId : Uuid) (s : Sys) (a : Action) : Prop :=
  ∃ workerId leaseMs queue msgId e, a = .adopt workerId leaseMs queue msgId ∧
    (s.redis.queues queue).stream[msgId]? = some e ∧ e.taskId = taskId

variable {s s' : Sys} {a : Action} {base : String → ℕ} {taskId : Uuid} {time : ℚ}

/-- What a request's step writes is what the answer to its call leaves. -/
theorem answer_of_step {i : ℕ} {reply : Reply} {post : Post} {out : Post.Outcome}
    (hpost : s.posts[i]? = some post)
    (hstep : s.step (.postStep i reply) = some (s.setPost i post out)) :
    ∃ out', post.answer s.stores s.waiting reply = some out' ∧ out'.post = out.post ∧
      out'.stores.redis = out.stores.redis := by
  obtain ⟨post', out', hpost', hanswer, heq⟩ := step_postStep hstep
  obtain rfl := Option.mem_unique hpost hpost'
  refine ⟨out', hanswer, ?_, (congrArg Sys.redis heq).symm⟩
  have hset := congrArg (fun t : Sys => t.posts[i]?) heq
  simp only [setPost_posts] at hset
  rw [Indexed.getElem?_set_of_eq hpost, Indexed.getElem?_set_of_eq hpost] at hset
  exact (Option.some.inj hset).symm

/-- A job that is done stays so, and one that schedules its retry is done by it. -/
theorem done_of_step {i : ℕ} {job job' : Job} (hyields : job.Yields)
    (ha : (∃ reply, a = .jobStep i reply) ∨ ∃ outcome, a = .handler i outcome)
    (hjob : s.jobs[i]? = some job) (hstep : s.step a = some s')
    (hjob' : s'.jobs[i]? = some job') : job'.Done := by
  have hset : ∀ {stores : Stores} {next : Job}, s' = s.setJob i stores next → job' = next := by
    rintro stores next rfl
    exact Indexed.eq_of_getElem?_set hjob'
  rcases ha with ⟨reply, rfl⟩ | ⟨outcome, rfl⟩
  · obtain ⟨job₁, hjob₁, hrest⟩ := Option.bind_eq_some_iff.mp hstep
    obtain rfl := Option.mem_unique hjob hjob₁
    cases reply with
    | ok now draw =>
      obtain ⟨out, hout, rfl⟩ := Option.map_eq_some_iff.mp hrest
      exact hset rfl ▸ hyields.proceed hout
    | raise applied now draw message =>
      cases applied with
      | false =>
        obtain ⟨failed, hfailed, rfl⟩ := Option.map_eq_some_iff.mp hrest
        exact hset rfl ▸ Or.inr (hyields.raised hfailed)
      | true =>
        obtain ⟨out, hout, hrest⟩ := Option.bind_eq_some_iff.mp hrest
        obtain ⟨failed, hfailed, rfl⟩ := Option.map_eq_some_iff.mp hrest
        have hended := hyields.raised hfailed
        exact hset rfl ▸ Or.inr hended
    | crash =>
      simp only [stepJob] at hrest
      split_ifs at hrest with hactive
      obtain rfl := Option.some.inj hrest
      exact hset rfl ▸ Or.inr rfl
  · obtain ⟨job₁, hends, -⟩ := handlerEnds_of_step hjob hstep
    rw [hyields.not_handlerEnds] at hends
    simp at hends

section Step

variable (h : s.Waits base taskId time)
include h

/-- A request of the task, answered before its time. -/
theorem Waits.answered {i : ℕ} {reply : Reply} {post : Post} {out : Post.Outcome}
    (ha : (Action.postStep i reply).ReadsBefore time) (hpost : s.posts[i]? = some post)
    (hactive : ¬ post.Ended) (hid : post.taskId = taskId)
    (hstep : s.step (.postStep i reply) = some (s.setPost i post out)) :
    (∀ e, out.post.pc ≠ .publish e) ∧
      (out.stores.redis = s.redis ∨
        ∃ e, out.stores.redis = s.redis.modifyQueue post.req.queue (·.schedule e time)) := by
  obtain ⟨⟨runAt, hrunAt, htime⟩, hpc⟩ :=
    h.posts post (List.mem_of_getElem? hpost) hid hactive
  obtain ⟨out', hanswer, hout, hredis⟩ := answer_of_step hpost hstep
  rw [← hout, ← hredis]
  exact Post.answer_before hanswer ha hrunAt htime hpc

/-- The requests of a waiting task. -/
theorem Waits.posts_step (ha : a.ReadsBefore time) (hstep : s.step a = some s') :
    ∀ post ∈ s'.posts, post.taskId = taskId → ¬ post.Ended →
      (∃ runAt, post.req.runAt = some runAt ∧ runAt.timestamp = some time) ∧
        ∀ e, post.pc ≠ .publish e := by
  rcases (moves_of_step hstep).control_cases with
    ⟨i, reply, post, out, rfl, -, hpost, hmove, rfl⟩ | ⟨req, id, rfl, hfresh, rfl⟩ |
      ⟨queue, envelope, -, hposts, -⟩ | ⟨hposts, -⟩
  · apply Indexed.forall_mem_set h.posts
    obtain ⟨hreq, hid⟩ := hmove.frame
    intro hout _
    have hsame : post.taskId = taskId := hid.symm.trans hout
    rw [hreq]
    refine ⟨(h.posts post (List.mem_of_getElem? hpost) hsame hmove.not_ended).1, ?_⟩
    exact (h.answered ha hpost hmove.not_ended hsame hstep).1
  · apply Indexed.forall_mem_append_singleton h.posts
    -- a request for a new task
    intro hid
    have hid' : id = taskId := hid
    exact absurd hfresh (hid' ▸ h.known)
  · rw [hposts]
    exact h.posts
  · rw [hposts]
    exact h.posts

/-- The executions of a waiting task are over. -/
theorem Waits.jobs_step (hadopt : ¬ s.Adopts taskId a) (hstep : s.step a = some s') :
    ∀ job ∈ s'.jobs, job.envelope.taskId = taskId → job.Done := by
  cases moves_of_step hstep with
  | @job _ i job job' stores' ha hjob hmove =>
    apply Indexed.forall_mem_set h.jobs
    intro hid
    rw [hmove.taskId_eq] at hid
    have hdone := h.jobs _ (List.mem_of_getElem? hjob) hid
    have haction : (∃ reply, a = .jobStep i reply) ∨ ∃ outcome, a = .handler i outcome := by
      rcases ha with ⟨reply, ha, -⟩ | ⟨ha, -⟩
      · exact Or.inl ⟨reply, ha⟩
      · exact Or.inr ha
    exact done_of_step (Or.inl hdone) haction hjob hstep (Indexed.getElem?_set_of_eq hjob)
  | delivered hentry =>
    apply Indexed.forall_mem_append_singleton h.jobs
    intro hid
    exact absurd hid ((h.queues _).stream _ _ (h.queues _).base_le hentry)
  | adopted hpending hentry =>
    apply Indexed.forall_mem_append_singleton h.jobs
    exact fun hid => absurd ⟨_, _, _, _, _, rfl, hentry, hid⟩ hadopt
  | post | posted | produced | requeued | requeue | cancelled | leases | promoted => exact h.jobs

/-- The queues of a waiting task. -/
theorem Waits.queues_step (hbooks : s.EnqueueInv) (ha : s.Before taskId time a)
    (hstep : s.step a = some s') :
    ∀ queue, (s'.redis.queues queue).Clear (base queue) taskId time := by
  have hmoves := moves_of_step hstep
  cases hmoves with
  | job ha hjob hmove =>
    rw [setJob_redis]
    obtain hsame | ⟨f, hf, hcases⟩ := hmove.queues_cases
    · rw [hsame]
      exact h.queues
    · rw [hf]
      apply Redis.clear_modifyQueue h.queues
      obtain ⟨-, rfl⟩ | ⟨text, runAt, hpc, -, rfl⟩ | ⟨text, -, rfl⟩ := hcases
      · exact (h.queues _).frame rfl le_rfl rfl
      · -- a retry is scheduled by an execution that is under way
        refine (h.queues _).schedule fun hid => ?_
        rcases h.jobs _ (List.mem_of_getElem? hjob) hid with hdone | hdone <;> simp [hpc] at hdone
      · exact (h.queues _).frame rfl le_rfl rfl
  | delivered =>
    rw [spawn_redis]
    apply Redis.clear_modifyQueue h.queues
    exact (h.queues _).frame rfl (Nat.le_succ _) rfl
  | adopted =>
    rw [spawn_redis]
    apply Redis.clear_modifyQueue h.queues
    exact (h.queues _).frame rfl le_rfl rfl
  | @post i reply post out _ hpost hmove =>
    rw [setPost_redis]
    by_cases hid : post.taskId = taskId
    · obtain ⟨-, hsame | ⟨e, hredis⟩⟩ := h.answered ha.1 hpost hmove.not_ended hid hstep
      · rw [hsame]
        exact h.queues
      · rw [hredis]
        exact Redis.clear_modifyQueue h.queues ((h.queues _).schedule fun _ => le_rfl)
    · -- the envelope of another task
      obtain ⟨hsame, -⟩ | ⟨e, hsent, -, hredis⟩ := hmove.sent_cases
      · rw [hsame]
        exact h.queues
      · obtain ⟨now, rfl⟩ := hbooks.sent_envelope hpost hmove hsent
        rcases hredis with hredis | ⟨at_, hredis⟩ <;> rw [hredis] <;>
          apply Redis.clear_modifyQueue h.queues
        · exact (h.queues _).append fun e he => List.mem_singleton.mp he ▸ hid
        · exact (h.queues _).schedule fun heq => absurd heq hid
  | produced hfresh hf =>
    have hne : ∀ {e : TaskEnvelope}, s.Fresh e.taskId → e.taskId ≠ taskId :=
      fun hfresh heq => h.known (heq ▸ hfresh)
    apply Redis.clear_modifyQueue h.queues
    obtain rfl | ⟨at_, rfl⟩ := hf
    · exact (h.queues _).append fun e he => List.mem_singleton.mp he ▸ hne hfresh
    · exact (h.queues _).schedule fun heq => absurd heq (hne hfresh)
  | @requeue i reply requeue requeue' stores' happlied hrequeue hmove =>
    rw [setRequeue_redis]
    cases hreply : reply.applied with
    | false =>
      rw [happlied hreply]
      exact h.queues
    | true =>
      obtain hsame | ⟨e, rest, hpc, hredis⟩ := hmove.redis_cases
      · rw [hsame]
        exact h.queues
      · rw [hredis]
        apply Redis.clear_modifyQueue h.queues
        have hother := ha.2 e ⟨i, reply, requeue, rest, rfl, hreply, hrequeue, hpc⟩
        exact (h.queues _).append fun e' he' => List.mem_singleton.mp he' ▸ hother
  | @promoted queue now =>
    exact Redis.clear_modifyQueue (f := (·.promoteScheduled now)) h.queues
      ((h.queues queue).promoteScheduled ha.1)
  | posted | requeued | cancelled | leases => exact h.queues

/-- A step keeps a task waiting. -/
theorem Waits.step (hbooks : s.EnqueueInv) (hadopt : ¬ s.Adopts taskId a)
    (ha : s.Before taskId time a) (hstep : s.step a = some s') :
    s'.Waits base taskId time where
  known hfresh := h.known ((moves_of_step hstep).fresh_of_fresh hfresh)
  posts := h.posts_step ha.1 hstep
  jobs := h.jobs_step hadopt hstep
  queues := h.queues_step hbooks ha hstep

/-- No execution of a waiting task begins. -/
theorem Waits.no_new_job (hadopt : ¬ s.Adopts taskId a) (hmoves : s.Moves a s') :
    s'.jobs.countP (fun job => job.envelope.taskId = taskId) =
      s.jobs.countP fun job => job.envelope.taskId = taskId := by
  cases hmoves with
  | @job _ i job job' stores' ha hjob hmove =>
    have hset := Indexed.countP_set_add (x := job')
      (fun job : Job => decide (job.envelope.taskId = taskId)) hjob
    simpa [hmove.taskId_eq] using hset
  | delivered hentry =>
    have hne := (h.queues _).stream _ _ (h.queues _).base_le hentry
    simp [deliveredJob, hne]
  | @adopted workerId leaseMs queue msgId e hpending hentry =>
    have hne : e.taskId ≠ taskId := fun hid => hadopt ⟨_, _, _, _, _, rfl, hentry, hid⟩
    simp [deliveredJob, hne]
  | post | posted | produced | requeued | requeue | cancelled | leases | promoted => rfl

end Step

/-- A task nobody has heard of has nothing on the queues and no execution. -/
theorem Reachable.not_carried (h : s.Reachable) (hfresh : s.Fresh taskId) {queue : String}
    {e : TaskEnvelope} (hcarries : s.Carries queue e) : e.taskId ≠ taskId := by
  intro hid
  rcases h.stems queue e hcarries with ⟨e₀, he₀, hsame⟩ | ⟨row, hrow, now, hsame⟩
  · exact hfresh.2 _ he₀ (hsame.taskId_eq.trans hid)
  · obtain ⟨post, hpost, -, hrowId, -⟩ := h.enqueueInv.exists_post hrow
    exact hfresh.1 post hpost (hrowId.trans (hsame.taskId_eq.trans hid))

/-- A request with a `run_at` starts to wait when it arrives. -/
theorem Reachable.waits_of_post (h : s.Reachable) {req : CreateTaskRequest} {runAt : DateTime}
    (hrunAt : req.runAt = some runAt) (htime : runAt.timestamp = some time)
    (hstep : s.step (.post req taskId) = some s') :
    s'.Waits (fun _ => 0) taskId time ∧ ∀ job ∈ s'.jobs, job.envelope.taskId ≠ taskId := by
  simp only [step] at hstep
  split_ifs at hstep with hfresh
  obtain rfl := Option.some.inj hstep
  have hjobs : ∀ job ∈ s.jobs, job.envelope.taskId ≠ taskId := fun job hjob =>
    h.not_carried hfresh (.worked hjob rfl rfl)
  refine ⟨?_, hjobs⟩
  constructor
  · exact fun hstill => hstill.1 _ (List.mem_append_right _ (List.mem_singleton.mpr rfl)) rfl
  · apply Indexed.forall_mem_append_singleton
    · exact fun post hpost hid => absurd hid (hfresh.1 post hpost)
    · intro _ _
      refine ⟨⟨runAt, hrunAt, htime⟩, fun e => ?_⟩
      simp only [Post.begin]
      split <;> simp
  · exact fun job hjob hid => absurd hid (hjobs job hjob)
  · intro queue
    exact
      { base_le := Nat.zero_le _
        stream := fun k e _ he => h.not_carried hfresh (.held (Or.inl (List.mem_of_getElem? he)))
        sched := fun m hm hid => absurd hid
          (h.not_carried hfresh (.held (Or.inr (Or.inl ⟨m, hm, rfl⟩)))) }

/-- **Not before its time.** After a request for a task with a `run_at` has arrived, no execution of
the task begins in any run in which no clock that decides about the schedule shows that time yet
and no requeue request publishes the task: whatever happens meanwhile, there is no job for it, and
it is on no stream. -/
theorem not_started_early {s₀ s₁ : Sys} (h : s₀.Reachable) {req : CreateTaskRequest}
    {runAt : DateTime} (hrunAt : req.runAt = some runAt) (htime : runAt.timestamp = some time)
    (hpost : s₀.step (.post req taskId) = some s₁)
    (hrun : Transition.ReachesWhen step (Before taskId time) s₁ s) :
    (∀ job ∈ s.jobs, job.envelope.taskId ≠ taskId) ∧
      ∀ queue, ∀ e ∈ (s.redis.queues queue).stream, e.taskId ≠ taskId := by
  have hreach₁ : s₁.Reachable := Relation.ReflTransGen.tail h ⟨_, trivial, hpost⟩
  have hstream : ∀ {u : Sys}, u.Waits (fun _ => 0) taskId time →
      ∀ queue, ∀ e ∈ (u.redis.queues queue).stream, e.taskId ≠ taskId := by
    intro u hwaits queue e he
    obtain ⟨k, hk⟩ := List.mem_iff_getElem?.mp he
    exact (hwaits.queues queue).stream k e (Nat.zero_le k) hk
  obtain ⟨hwaits, hjobs⟩ : s.Waits (fun _ => 0) taskId time ∧
      ∀ job ∈ s.jobs, job.envelope.taskId ≠ taskId := by
    apply hrun.invariant_along (I := fun u => u.Waits (fun _ => 0) taskId time ∧
      ∀ job ∈ u.jobs, job.envelope.taskId ≠ taskId) (h.waits_of_post hrunAt htime hpost)
    rintro u a v huv ⟨hwaits, hjobs⟩ ha hstep
    have hreach : u.Reachable := Relation.ReflTransGen.trans hreach₁ huv.reaches
    -- there is no entry of the task to adopt
    have hadopt : ¬ u.Adopts taskId a := by
      rintro ⟨workerId, leaseMs, queue, msgId, e, -, he, hid⟩
      exact hstream hwaits queue e (List.mem_of_getElem? he) hid
    refine ⟨hwaits.step hreach.enqueueInv hadopt ha hstep, fun job hjob hid => ?_⟩
    have hnone : u.jobs.countP (fun job => job.envelope.taskId = taskId) = 0 :=
      List.countP_eq_zero.mpr (by simpa using hjobs)
    have hcount := (hwaits.no_new_job hadopt (moves_of_step hstep)).trans hnone
    exact List.countP_eq_zero.mp hcount job hjob (by simpa using hid)
  exact ⟨hjobs, hstream hwaits⟩

/-- The theorem at a task for the tenth second, which ticks in the first five leave where it is. -/
theorem not_started_early_ticks : ∃ s : Sys,
    (s.redis.queues "q").sched.map Prod.snd = [10] ∧
      ∀ job ∈ s.jobs, job.envelope.taskId ≠ ⟨1⟩ := by
  let req : CreateTaskRequest :=
    { queue := "q"
      taskName := "t"
      payload := .null
      runAt := some ⟨10, some 0⟩ }
  let calls : List Action :=
    List.replicate 3 (.postStep 0 (.ok 0 0)) ++ [.promote "q" 1, .promote "q" 5]
  obtain ⟨s, hrun, hsched⟩ :=
    Transition.exists_run_of_check step init (.post req ⟨1⟩ :: calls)
      (fun s => (s.redis.queues "q").sched.map Prod.snd = [10]) (by decide +kernel)
  obtain ⟨s₁, hpost, hrest⟩ := Option.bind_eq_some_iff.mp hrun
  have hbefore : ∀ a ∈ calls, ∀ u, Before ⟨1⟩ 10 u a := by
    intro a ha u
    simp only [calls, List.mem_append, List.mem_replicate, List.mem_cons, List.not_mem_nil,
      or_false] at ha
    rcases ha with ⟨-, rfl⟩ | rfl | rfl
    · exact ⟨by norm_num [Action.ReadsBefore], by simp [Publishes]⟩
    · exact ⟨by norm_num [Action.ReadsBefore], by simp [Publishes]⟩
    · exact ⟨by norm_num [Action.ReadsBefore], by simp [Publishes]⟩
  have htime : DateTime.timestamp ⟨10, some 0⟩ = some 10 := by norm_num [DateTime.timestamp]
  have hnone := not_started_early (.refl init) rfl htime hpost (.of_run hbefore hrest)
  exact ⟨s, hsched, hnone.1⟩

end Sys

end Dtq
