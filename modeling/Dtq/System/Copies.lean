import Dtq.System.Early

/-!
# One live copy

As long as nobody adopts an entry of a task and nobody requeues it, there is one live copy of its
envelope at most: in a request that has not sent it, on the stream and not delivered, in the
schedule, or with the one execution that has not handed it on. Every step that makes a copy gives
up another one. So while a copy is in the schedule, nothing else of the task is about, and the
next execution waits for the scheduled time: a retry keeps to its backoff.

## Main results

* `Sys.copies_step` — a step makes no copy of a task unless it creates the task
* `Sys.one_at_a_time` — while an execution is under way, there is no other one and none to come
* `Sys.retry_not_early` — while a task is scheduled, no execution of it begins before its time
-/

set_option autoImplicit false

namespace Dtq

namespace QueueState

/-- The copies that the queue has left to hand out. -/
def copies (q : QueueState) (taskId : Uuid) : ℕ :=
  ((q.stream.drop q.delivered).countP fun e => e.taskId = taskId) +
    q.sched.countP fun m => m.1.taskId = taskId

variable {q : QueueState} {e : TaskEnvelope} {taskId : Uuid}

theorem copies_publish_le :
    (q.publish e).copies taskId ≤ q.copies taskId + if e.taskId = taskId then 1 else 0 := by
  have hlast : ([e].drop (q.delivered - q.stream.length)).countP (fun e => e.taskId = taskId) ≤
      if e.taskId = taskId then 1 else 0 := by
    refine (List.drop_sublist _ _).countP_le.trans ?_
    simp [List.countP_cons]
  simp only [copies, publish, List.drop_append, List.countP_append]
  omega

theorem copies_schedule_le {runAt : ℚ} :
    (q.schedule e runAt).copies taskId ≤
      q.copies taskId + if e.taskId = taskId then 1 else 0 := by
  have hsplit := List.takeWhile_append_dropWhile (p := fun m : TaskEnvelope × ℚ => m.2 ≤ runAt)
    (l := q.sched.filter fun m => m.1 ≠ e)
  have hcount : (q.sched.filter fun m => m.1 ≠ e).countP (fun m => m.1.taskId = taskId) ≤
      q.sched.countP fun m => m.1.taskId = taskId :=
    List.filter_sublist.countP_le
  rw [← hsplit, List.countP_append] at hcount
  simp only [copies, schedule, zadd, List.countP_append, List.countP_cons]
  simp only [decide_eq_true_eq]
  omega

/-- The next entry leaves the queue when it is delivered. -/
theorem copies_delivered (hentry : q.stream[q.delivered]? = some e) (pending : List Pending) :
    ({ q with delivered := q.delivered + 1, pending := pending } : QueueState).copies taskId +
      (if e.taskId = taskId then 1 else 0) = q.copies taskId := by
  obtain ⟨hlt, rfl⟩ := List.getElem?_eq_some_iff.mp hentry
  simp only [copies, List.drop_eq_getElem_cons hlt, List.countP_cons, decide_eq_true_eq]
  omega

theorem copies_promoteScheduled_le {now : ℚ} :
    (q.promoteScheduled now).copies taskId ≤ q.copies taskId := by
  let batch := (q.sched.filter fun m => m.2 ≤ now).take 100
  have hdue : q.due now 100 = batch.map Prod.fst := rfl
  -- the members that are moved are among those that leave the schedule
  have hmoved : batch.Sublist (q.sched.filter fun m => m.1 ∈ q.due now 100) := by
    have hsub : batch.Sublist q.sched := (List.take_sublist _ _).trans List.filter_sublist
    have hself : batch.filter (fun m => m.1 ∈ q.due now 100) = batch :=
      List.filter_eq_self.mpr fun m hm => by
        rw [hdue]
        exact decide_eq_true (List.mem_map_of_mem hm)
    exact hself ▸ hsub.filter _
  have hgained : ((q.due now 100).drop (q.delivered - q.stream.length)).countP
      (fun e => e.taskId = taskId) ≤
      (q.sched.filter fun m => m.1 ∈ q.due now 100).countP fun m => m.1.taskId = taskId := by
    refine (List.drop_sublist _ _).countP_le.trans ?_
    rw [hdue, List.countP_map]
    exact hdue ▸ hmoved.countP_le
  have hsplit := List.countP_eq_countP_filter_add q.sched
    (fun m : TaskEnvelope × ℚ => m.1.taskId = taskId) fun m => m.1 ∈ q.due now 100
  rw [promoteScheduled_eq]
  simp only [copies, List.drop_append, List.countP_append]
  simp only [decide_not] at hsplit ⊢
  omega

theorem mem_undelivered {k : ℕ} (hk : q.delivered ≤ k) (he : q.stream[k]? = some e) :
    e ∈ q.stream.drop q.delivered := by
  apply List.mem_of_getElem? (i := k - q.delivered)
  rw [List.getElem?_drop, Nat.add_sub_cancel' hk]
  exact he

end QueueState

namespace Sys

/-- The live copies of a task that belong to a queue: requests that have not sent it, what the
queue has left to hand out, and executions that have not handed it on. -/
def copies (s : Sys) (queue : String) (taskId : Uuid) : ℕ :=
  (s.posts.countP fun post => post.taskId = taskId ∧ post.req.queue = queue ∧ ¬ post.Ended) +
    (s.redis.queues queue).copies taskId +
    s.jobs.countP fun job => job.envelope.taskId = taskId ∧ job.queue = queue ∧ ¬ job.Done

/-- The queue that an action creates the task on. -/
def createdOn (taskId : Uuid) : Action → Option String
  | .post req id => if id = taskId then some req.queue else none
  | .produce queue e _ => if e.taskId = taskId then some queue else none
  | _ => none

/-- Nobody adopts an entry of the task, and no requeue request publishes it. -/
def Alone (taskId : Uuid) (s : Sys) (a : Action) : Prop :=
  ¬ s.Adopts taskId a ∧ ∀ e, s.Publishes a e → e.taskId ≠ taskId

variable {s s' : Sys} {a : Action} {taskId : Uuid} {queue : String}

/-- Steps of the other kinds meet the condition. -/
theorem alone_of_ne
    (hadopt : ∀ workerId leaseMs queue msgId, a ≠ .adopt workerId leaseMs queue msgId)
    (hrequeue : ∀ i reply, a ≠ .requeueStep i reply) : s.Alone taskId a := by
  constructor
  · rintro ⟨workerId, leaseMs, queue, msgId, e, ha, -⟩
    exact hadopt _ _ _ _ ha
  · rintro e ⟨i, reply, requeue, rest, ha, -⟩
    exact absurd ha (hrequeue i reply)

/-- Changing another queue does not matter. -/
theorem copies_modifyQueue_le {r : Redis} {name : String} {f : QueueState → QueueState} {n : ℕ}
    (hf : name = queue → (f (r.queues name)).copies taskId ≤ (r.queues name).copies taskId + n) :
    ((r.modifyQueue name f).queues queue).copies taskId ≤ (r.queues queue).copies taskId + n := by
  by_cases hname : queue = name
  · subst hname
    rw [Redis.modifyQueue_self]
    exact hf rfl
  · rw [Redis.modifyQueue_of_ne _ _ hname]
    exact Nat.le_add_right _ _

/-- A new execution brings a copy, which the queue must have given up. -/
theorem copies_spawn_le {name : String} {state : QueueState} {job : Job} (hqueue : job.queue = name)
    (hstate : state.copies taskId +
        (if job.envelope.taskId = taskId ∧ ¬ job.Done then 1 else 0) ≤
      (s.redis.queues name).copies taskId) :
    (s.spawn name state job).copies queue taskId ≤ s.copies queue taskId := by
  simp only [copies, spawn_posts, spawn_jobs, spawn_redis, List.countP_append,
    List.countP_singleton, decide_eq_true_eq]
  by_cases hname : queue = name
  · subst hname
    simp only [hqueue, true_and, Redis.modifyQueue_self]
    omega
  · have hother : job.queue ≠ queue := fun heq => hname (heq.symm.trans hqueue)
    rw [Redis.modifyQueue_of_ne _ _ hname]
    simp [hother]

/-- A job's move makes no copy: what it schedules, it hands on. -/
theorem copies_job {i : ℕ} {job job' : Job} {stores' : Stores}
    (ha : (∃ reply, a = .jobStep i reply) ∨ ∃ outcome, a = .handler i outcome)
    (hjob : s.jobs[i]? = some job) (hmove : job.Moves s.stores s.locks stores' job')
    (hstep : s.step a = some (s.setJob i stores' job')) :
    (s.setJob i stores' job').copies queue taskId ≤ s.copies queue taskId := by
  have hcount := Indexed.countP_set_add (x := job')
    (fun job : Job => decide (job.envelope.taskId = taskId ∧ job.queue = queue ∧ ¬ job.Done)) hjob
  have hdone := fun hyields : job.Yields =>
    done_of_step hyields ha hjob hstep (Indexed.getElem?_set_of_eq hjob)
  obtain ⟨hsame, hqueue, -⟩ := hmove.frame
  rw [← hsame.taskId_eq, hqueue] at hcount
  simp only [copies, setJob_jobs, setJob_posts, setJob_redis]
  simp only [decide_eq_true_eq] at hcount
  have hle : (stores'.redis.queues queue).copies taskId ≤ (s.redis.queues queue).copies taskId +
      if job.envelope.taskId = taskId ∧ job.queue = queue ∧ ¬ job.Done ∧ job'.Done
        then 1 else 0 := by
    obtain hredis | ⟨f, hf, hcases⟩ := hmove.queues_cases
    · rw [hredis]
      exact Nat.le_add_right _ _
    · rw [hf]
      refine copies_modifyQueue_le fun hname => ?_
      obtain ⟨-, rfl⟩ | ⟨text, runAt, hpc, hretry, rfl⟩ | ⟨text, -, rfl⟩ := hcases
      · exact Nat.le_add_right _ _
      · -- the job yields by scheduling its retry
        have hnot : ¬ job.Done := by simp [Job.Done, hpc]
        have hyielded : job'.Done := hdone (Or.inr ⟨text, hpc, hretry⟩)
        refine QueueState.copies_schedule_le.trans ?_
        by_cases hid : job.envelope.taskId = taskId <;> simp [hid, hname, hnot, hyielded]
      · exact Nat.le_add_right _ _
  by_cases hbefore : job.Done
  · have hafter : job'.Done := hdone (Or.inl hbefore)
    simp only [hbefore, hafter, not_true, and_false, false_and, if_false] at hcount hle
    omega
  · by_cases hafter : job'.Done
    · simp only [hbefore, hafter, not_true, not_false_eq_true, and_true, and_false,
        if_false] at hcount hle
      omega
    · simp only [hbefore, hafter, not_false_eq_true, and_true, and_false, if_false] at hcount hle
      omega

/-- A request's move makes no copy: when it sends its envelope, it ends. -/
theorem copies_post {i : ℕ} {post : Post} {out : Post.Outcome} (hbooks : s.EnqueueInv)
    (hpost : s.posts[i]? = some post) (hmove : post.Moves s.stores s.waiting out) :
    (s.setPost i post out).copies queue taskId ≤ s.copies queue taskId := by
  have hcount := Indexed.countP_set_add (x := out.post)
    (fun post : Post => decide (post.taskId = taskId ∧ post.req.queue = queue ∧ ¬ post.Ended))
    hpost
  rw [hmove.frame.1, hmove.frame.2] at hcount
  have hactive := hmove.not_ended
  simp only [decide_eq_true_eq, hactive, not_false_eq_true, and_true] at hcount
  have hle : (out.stores.redis.queues queue).copies taskId ≤
      (s.redis.queues queue).copies taskId +
        if post.taskId = taskId ∧ post.req.queue = queue ∧ out.post.Ended then 1 else 0 := by
    obtain ⟨hredis, -⟩ | ⟨e, hsent, -, hredis⟩ := hmove.sent_cases
    · rw [hredis]
      exact Nat.le_add_right _ _
    · have hended := hmove.ended_of_sent hsent
      obtain ⟨now, rfl⟩ := hbooks.sent_envelope hpost hmove hsent
      rcases hredis with hredis | ⟨at_, hredis⟩
      · rw [hredis]
        refine copies_modifyQueue_le fun hname => QueueState.copies_publish_le.trans ?_
        by_cases htask : post.taskId = taskId <;>
          simp [CreateTaskRequest.envelope, htask, hname, hended]
      · rw [hredis]
        refine copies_modifyQueue_le fun hname => QueueState.copies_schedule_le.trans ?_
        by_cases htask : post.taskId = taskId <;>
          simp [CreateTaskRequest.envelope, htask, hname, hended]
  simp only [copies, setPost_jobs, setPost_posts, setPost_redis]
  by_cases hafter : out.post.Ended
  · simp only [hafter, not_true, and_true, and_false, if_false] at hcount hle
    omega
  · simp only [hafter, not_false_eq_true, and_true, and_false, if_false] at hcount hle
    omega

/-- A step makes no copy of a task, unless it creates the task, or somebody adopts an entry of it
or requeues it. -/
theorem copies_step (hbooks : s.EnqueueInv) (ha : s.Alone taskId a)
    (hstep : s.step a = some s') :
    s'.copies queue taskId ≤
      s.copies queue taskId + if createdOn taskId a = some queue then 1 else 0 := by
  cases moves_of_step hstep with
  | @job _ i job job' stores' haction hjob hmove =>
    have haction' : (∃ reply, a = .jobStep i reply) ∨ ∃ outcome, a = .handler i outcome := by
      rcases haction with ⟨reply, ha, -⟩ | ⟨ha, -⟩
      · exact Or.inl ⟨reply, ha⟩
      · exact Or.inr ha
    exact (copies_job haction' hjob hmove hstep).trans (Nat.le_add_right _ _)
  | post _ hpost hmove => exact (copies_post hbooks hpost hmove).trans (Nat.le_add_right _ _)
  | @posted req id hfresh =>
    have hnew : [Post.begin req id].countP (fun post =>
        post.taskId = taskId ∧ post.req.queue = queue ∧ ¬ post.Ended) ≤
        if createdOn taskId (.post req id) = some queue then 1 else 0 := by
      rw [List.countP_singleton]
      by_cases hid : id = taskId <;> by_cases hqueue : req.queue = queue <;>
        simp only [Post.begin, createdOn, hid, hqueue] <;> grind
    simp only [copies, List.countP_append]
    omega
  | @produced name e runAt f hfresh hf =>
    have hle : ((s.redis.modifyQueue name f).queues queue).copies taskId ≤
        (s.redis.queues queue).copies taskId +
          if createdOn taskId (.produce name e runAt) = some queue then 1 else 0 := by
      refine copies_modifyQueue_le fun hname => ?_
      have hcreated : (if e.taskId = taskId then 1 else 0) ≤
          if createdOn taskId (.produce name e runAt) = some queue then 1 else 0 := by
        by_cases hid : e.taskId = taskId <;> simp [createdOn, hid, hname]
      obtain rfl | ⟨at_, rfl⟩ := hf
      · exact QueueState.copies_publish_le.trans (Nat.add_le_add_left hcreated _)
      · exact QueueState.copies_schedule_le.trans (Nat.add_le_add_left hcreated _)
    simp only [copies]
    omega
  | @delivered workerId leaseMs name e hentry =>
    -- the copy passes from the queue to the new execution
    apply (copies_spawn_le ?_ ?_).trans (Nat.le_add_right _ _)
    · rfl
    · have hone : (if e.taskId = taskId ∧ ¬ (deliveredJob workerId leaseMs name
          (s.redis.queues name).delivered e (.execute .acquireLease)).Done then 1 else 0) ≤
          if e.taskId = taskId then 1 else 0 := by
        split_ifs <;> simp_all
      exact (Nat.add_le_add_left hone _).trans (QueueState.copies_delivered hentry _).le
  | @adopted workerId leaseMs name msgId e hpending hentry =>
    have hother : e.taskId ≠ taskId := fun hid => ha.1 ⟨_, _, _, _, _, rfl, hentry, hid⟩
    apply (copies_spawn_le ?_ ?_).trans (Nat.le_add_right _ _)
    · rfl
    · rw [if_neg fun hmine => hother hmine.1]
      exact le_rfl
  | @requeue i reply requeue requeue' stores' happlied hrequeue hmove =>
    have hle : (stores'.redis.queues queue).copies taskId ≤
        (s.redis.queues queue).copies taskId := by
      cases hreply : reply.applied with
      | false => rw [happlied hreply, stores_redis]
      | true =>
        obtain hsame | ⟨e, rest, hpc, hredis⟩ := hmove.redis_cases
        · rw [hsame, stores_redis]
        · have hother := ha.2 e ⟨i, reply, requeue, rest, rfl, hreply, hrequeue, hpc⟩
          rw [hredis]
          refine copies_modifyQueue_le (n := 0) fun _ => QueueState.copies_publish_le.trans ?_
          simp [hother]
    simp only [copies, setRequeue_posts, setRequeue_jobs, setRequeue_redis]
    omega
  | @promoted name now =>
    have hle : ((s.redis.modifyQueue name (·.promoteScheduled now)).queues queue).copies taskId ≤
        (s.redis.queues queue).copies taskId :=
      copies_modifyQueue_le (n := 0) fun _ => QueueState.copies_promoteScheduled_le
    simp only [copies]
    omega
  | requeued | cancelled | leases => exact Nat.le_add_right _ _

/-- A task is created under an id that nobody has used. -/
theorem fresh_of_createdOn (hstep : s.step a = some s')
    (hcreated : createdOn taskId a = some queue) : s.Fresh taskId := by
  cases a with
  | post req id =>
    simp only [createdOn] at hcreated
    simp only [step] at hstep
    split_ifs at hcreated hstep with hid hfresh
    exact hid ▸ hfresh
  | produce name e runAt =>
    simp only [createdOn] at hcreated
    simp only [step] at hstep
    split_ifs at hcreated hstep with hid hfresh
    exact hid ▸ hfresh
  | _ => simp [createdOn] at hcreated

/-- There is no copy of a task nobody has heard of. -/
theorem Reachable.copies_eq_zero (h : s.Reachable) (hfresh : s.Fresh taskId) :
    s.copies queue taskId = 0 := by
  have hother : ∀ {e}, s.Carries queue e → e.taskId ≠ taskId := h.not_carried hfresh
  simp only [copies, QueueState.copies, Nat.add_eq_zero_iff, List.countP_eq_zero,
    decide_eq_true_eq]
  refine ⟨⟨?_, ?_, ?_⟩, ?_⟩
  · exact fun post hpost hmine => hfresh.1 post hpost hmine.1
  · exact fun e he => hother (.held (Or.inl (List.mem_of_mem_drop he)))
  · exact fun m hm => hother (.held (Or.inr (Or.inl ⟨m, hm, rfl⟩)))
  · exact fun job hjob hmine => hother (.worked hjob hmine.2.1 rfl) hmine.1

/-- A task that is neither adopted nor requeued has one live copy at most, on one queue. -/
theorem copies_le_one (h : Transition.ReachesWhen step (Alone taskId) init s) :
    ∃ q₀, ∀ queue, s.copies queue taskId ≤ if queue = q₀ then 1 else 0 := by
  apply h.invariant_along
  · exact ⟨"", fun queue => Nat.zero_le _⟩
  · rintro u a v hrun ⟨q₀, hone⟩ ha hstep
    have hreach : u.Reachable := hrun.reaches
    have hgrows : ∀ queue, v.copies queue taskId ≤
        u.copies queue taskId + if createdOn taskId a = some queue then 1 else 0 :=
      fun queue => copies_step hreach.enqueueInv ha hstep
    cases hcreated : createdOn taskId a with
    | none =>
      refine ⟨q₀, fun queue => (hgrows queue).trans ?_⟩
      simpa [hcreated] using hone queue
    | some q₁ =>
      -- the first copy of the task
      refine ⟨q₁, fun queue => (hgrows queue).trans ?_⟩
      have hnone : u.copies queue taskId = 0 :=
        hreach.copies_eq_zero (fresh_of_createdOn hstep hcreated)
      simp [hnone, hcreated, eq_comm]

/-- Where there is one copy of such a task, there is no other one. -/
theorem copies_le_of_pos (h : Transition.ReachesWhen step (Alone taskId) init s)
    (hpos : 0 < s.copies queue taskId) (name : String) :
    s.copies name taskId ≤ if name = queue then 1 else 0 := by
  obtain ⟨q₀, hone⟩ := copies_le_one h
  have hqueue : queue = q₀ := by
    by_contra hne
    have hnone := hone queue
    rw [if_neg hne] at hnone
    omega
  exact hqueue ▸ hone name

/-- A task with a member in a schedule waits for its time. -/
theorem waits_of_sched (h : Transition.ReachesWhen step (Alone taskId) init s)
    {m : TaskEnvelope × ℚ} (hm : m ∈ (s.redis.queues queue).sched) (hid : m.1.taskId = taskId) :
    s.Waits (fun name => (s.redis.queues name).delivered) taskId m.2 := by
  have hpos : 0 < (s.redis.queues queue).sched.countP fun m => m.1.taskId = taskId :=
    List.countP_pos_iff.mpr ⟨m, hm, decide_eq_true hid⟩
  -- the member is the one live copy
  have hcopy : 0 < s.copies queue taskId := by
    simp only [copies, QueueState.copies]
    omega
  have hone := copies_le_of_pos h hcopy
  have hrest : ∀ name, (s.posts.countP fun post =>
      post.taskId = taskId ∧ post.req.queue = name ∧ ¬ post.Ended) = 0 ∧
      (((s.redis.queues name).stream.drop (s.redis.queues name).delivered).countP
        fun e => e.taskId = taskId) = 0 ∧
      (s.jobs.countP fun job => job.envelope.taskId = taskId ∧ job.queue = name ∧ ¬ job.Done) = 0 ∧
      ((s.redis.queues name).sched.countP fun m => m.1.taskId = taskId) ≤
        if name = queue then 1 else 0 := by
    intro name
    have hname := hone name
    simp only [copies, QueueState.copies] at hname
    by_cases heq : name = queue
    · subst heq
      rw [if_pos rfl] at hname ⊢
      omega
    · rw [if_neg heq] at hname ⊢
      omega
  constructor
  · intro hfresh
    have hreach : s.Reachable := h.reaches
    exact hreach.not_carried hfresh (.held (Or.inr (Or.inl ⟨m, hm, rfl⟩))) hid
  · intro post hpost hmine hactive
    have hnone := List.countP_eq_zero.mp (hrest post.req.queue).1 post hpost
    simp [hmine, hactive] at hnone
  · intro job hjob hmine
    have hnone := List.countP_eq_zero.mp (hrest job.queue).2.2.1 job hjob
    simpa [hmine] using hnone
  · intro name
    obtain ⟨-, hstream, -, hsched⟩ := hrest name
    constructor
    · exact le_rfl
    · intro k e hk he hmine
      have hnone := List.countP_eq_zero.mp hstream e (QueueState.mem_undelivered hk he)
      simp [hmine] at hnone
    · intro m' hm' hmine
      have hpos' : 0 < (s.redis.queues name).sched.countP fun m => m.1.taskId = taskId :=
        List.countP_pos_iff.mpr ⟨m', hm', decide_eq_true hmine⟩
      split_ifs at hsched with hname
      · subst hname
        obtain ⟨j, hj⟩ := List.mem_iff_getElem?.mp hm
        obtain ⟨j', hj'⟩ := List.mem_iff_getElem?.mp hm'
        obtain rfl := Indexed.eq_of_countP_le_one hsched hj hj' (decide_eq_true hid)
          (decide_eq_true hmine)
        rw [Option.mem_unique hj hj']
      · omega

/-- **One execution at a time.** As long as nobody adopts an entry of the task and nobody requeues
it, its executions do not overlap, whatever becomes of its leases: while one is under way, all
others have handed their message on, and nothing of the task is to be delivered, scheduled or
about to be sent. -/
theorem one_at_a_time (h : Transition.ReachesWhen step (Alone taskId) init s) {i : ℕ} {job : Job}
    (hjob : s.jobs[i]? = some job) (hid : job.envelope.taskId = taskId) (hactive : ¬ job.Done) :
    (∀ j other, s.jobs[j]? = some other → other.envelope.taskId = taskId → ¬ other.Done → j = i) ∧
      (∀ queue k e, (s.redis.queues queue).delivered ≤ k →
        (s.redis.queues queue).stream[k]? = some e → e.taskId ≠ taskId) ∧
      (∀ queue, ∀ m ∈ (s.redis.queues queue).sched, m.1.taskId ≠ taskId) ∧
      ∀ post ∈ s.posts, post.taskId = taskId → post.Ended := by
  have hpos : ∀ {j : ℕ} {other : Job}, s.jobs[j]? = some other → other.envelope.taskId = taskId →
      ¬ other.Done → 0 < s.jobs.countP fun j =>
        j.envelope.taskId = taskId ∧ j.queue = other.queue ∧ ¬ j.Done := by
    intro j other hother hotherId hundone
    refine List.countP_pos_iff.mpr ⟨other, List.mem_of_getElem? hother, ?_⟩
    simp [hotherId, hundone]
  have hhere := hpos hjob hid hactive
  have hcopy : 0 < s.copies job.queue taskId := by
    simp only [copies]
    omega
  have hone := fun name => copies_le_of_pos h hcopy name
  simp only [copies, QueueState.copies] at hone
  -- the execution is the one live copy
  have hrest : ∀ name, (s.posts.countP fun post =>
      post.taskId = taskId ∧ post.req.queue = name ∧ ¬ post.Ended) = 0 ∧
      (((s.redis.queues name).stream.drop (s.redis.queues name).delivered).countP
        fun e => e.taskId = taskId) = 0 ∧
      ((s.redis.queues name).sched.countP fun m => m.1.taskId = taskId) = 0 ∧
      (s.jobs.countP fun j => j.envelope.taskId = taskId ∧ j.queue = name ∧ ¬ j.Done) ≤
        if name = job.queue then 1 else 0 := by
    intro name
    have hname := hone name
    by_cases heq : name = job.queue
    · subst heq
      rw [if_pos rfl] at hname ⊢
      omega
    · rw [if_neg heq] at hname ⊢
      omega
  refine ⟨fun j other hother hotherId hundone => ?_, fun queue k e hk he hmine => ?_,
    fun queue m hm hmine => ?_, fun post hpost hmine => ?_⟩
  · have hle := (hrest other.queue).2.2.2
    have hthere := hpos hother hotherId hundone
    split_ifs at hle with hqueue
    · rw [← hqueue] at hhere
      exact Indexed.eq_of_countP_le_one hle hother hjob (by simp [hotherId, hundone])
        (by simp [hid, hqueue, hactive])
    · omega
  · have hnone := List.countP_eq_zero.mp (hrest queue).2.1 e
      (QueueState.mem_undelivered hk he)
    simp [hmine] at hnone
  · have hnone := List.countP_eq_zero.mp (hrest queue).2.2.1 m hm
    simp [hmine] at hnone
  · have hnone := List.countP_eq_zero.mp (hrest post.req.queue).1 post hpost
    simpa [hmine] using hnone

/-- A first attempt that has failed with an error that may be retried, after its lease ran out. -/
def failedOnce : List Action :=
  accept 0 { queue := "q", taskName := "t", payload := .null } ⟨1⟩ ++
    [.deliver "a" 100 "q"] ++ proceeds 0 3 ++ [.expire (Uuid.str ⟨1⟩),
      .handler 0 (.raised "ValueError" "boom")] ++ proceeds 0 2

theorem alone_failedOnce : ∀ a ∈ failedOnce, ∀ s : Sys, s.Alone taskId a := by
  intro a ha s
  simp only [failedOnce, accept, proceeds] at ha
  apply alone_of_ne
  · rintro workerId leaseMs queue msgId rfl
    simp at ha
  · rintro i reply rfl
    simp at ha

/-- The theorem at an attempt that has lost its lease. -/
theorem one_at_a_time_expired : ∃ s : Sys,
    (∃ job ∈ s.jobs, job.envelope.taskId = ⟨1⟩ ∧ ¬ job.Done) ∧
      s.redis.leaseStore.leases (Uuid.str ⟨1⟩) = none ∧
      ∀ queue, ∀ m ∈ (s.redis.queues queue).sched, m.1.taskId ≠ ⟨1⟩ := by
  obtain ⟨s, hrun, hlength, hlease, hchecks⟩ :=
    Transition.exists_run_of_check step init failedOnce
      (fun s => s.jobs.length = 1 ∧ (s.redis.leaseStore.leases (Uuid.str ⟨1⟩)).isNone ∧
        ∀ job ∈ s.jobs, job.envelope.taskId = ⟨1⟩ ∧ ¬ job.Done)
      (by decide +kernel)
  obtain ⟨job, hjobs⟩ := List.length_eq_one_iff.mp hlength
  obtain ⟨hid, hactive⟩ := hchecks job (by simp [hjobs])
  obtain ⟨-, -, hsched, -⟩ := one_at_a_time (.of_run alone_failedOnce hrun) (i := 0)
    (by simp [hjobs]) hid hactive
  exact ⟨s, ⟨job, by simp [hjobs], hid, hactive⟩, Option.isNone_iff_eq_none.mp hlease, hsched⟩

/-- While a task is in a schedule, none of its executions is under way, and none begins before a
clock shows the time it is scheduled for. -/
theorem scheduled_not_early (h : Transition.ReachesWhen step (Alone taskId) init s)
    {m : TaskEnvelope × ℚ} (hm : m ∈ (s.redis.queues queue).sched) (hid : m.1.taskId = taskId)
    (hrun : Transition.ReachesWhen step (fun s a => s.Alone taskId a ∧ a.ReadsBefore m.2) s s') :
    s'.jobs.countP (fun job => job.envelope.taskId = taskId) =
        s.jobs.countP (fun job => job.envelope.taskId = taskId) ∧
      ∀ job ∈ s'.jobs, job.envelope.taskId = taskId → job.Done := by
  let base := fun name => (s.redis.queues name).delivered
  have hwaits : s'.Waits base taskId m.2 ∧
      s'.jobs.countP (fun job => job.envelope.taskId = taskId) =
        s.jobs.countP (fun job => job.envelope.taskId = taskId) := by
    apply hrun.invariant_along (I := fun u => u.Waits base taskId m.2 ∧
      u.jobs.countP (fun job => job.envelope.taskId = taskId) =
        s.jobs.countP (fun job => job.envelope.taskId = taskId)) ⟨waits_of_sched h hm hid, rfl⟩
    rintro u a v huv ⟨hwaits, hcount⟩ ⟨⟨hadopt, hpublishes⟩, hreads⟩ hstep
    have hreach : u.Reachable := h.reaches.trans huv.reaches
    refine ⟨hwaits.step hreach.enqueueInv hadopt ⟨hreads, hpublishes⟩ hstep, ?_⟩
    exact (hwaits.no_new_job hadopt (moves_of_step hstep)).trans hcount
  exact ⟨hwaits.2, hwaits.1.jobs⟩

/-- **A retry keeps to its backoff.** As long as nobody adopts an entry of the task and nobody
requeues it: when an execution has scheduled its retry, no other execution of the task is under
way, and none begins before a clock shows the time of the failure and the computed delay. -/
theorem retry_not_early {s₀ s₁ s₂ : Sys} {i : ℕ} {job : Job} {text : Option String}
    {now draw delay : ℚ} (h : Transition.ReachesWhen step (Alone job.envelope.taskId) init s₀)
    (hjob : s₀.jobs[i]? = some job) (hpc : job.pc = .returned false text)
    (hretries : job.retries text = true)
    (hdelay : computeDelay job.envelope.retryPolicy (job.envelope.attempt + 1) draw = some delay)
    (hstep : s₀.step (.jobStep i (.ok now draw)) = some s₁)
    (hrun : Transition.ReachesWhen step
      (fun s a => s.Alone job.envelope.taskId a ∧ a.ReadsBefore (now + delay)) s₁ s₂) :
    s₂.jobs.countP (fun j => j.envelope.taskId = job.envelope.taskId) =
        s₀.jobs.countP (fun j => j.envelope.taskId = job.envelope.taskId) ∧
      ∀ j ∈ s₂.jobs, j.envelope.taskId = job.envelope.taskId → j.Done := by
  have hrun₁ := h.tail (alone_of_ne (by simp) (by simp)) hstep
  simp only [step, hjob, Option.bind_some, stepJob, Job.proceed, hpc, hretries, if_true, hdelay,
    Option.map_some] at hstep
  obtain rfl := Option.some.inj hstep
  have hm : (job.envelope.nextAttempt, now + delay) ∈
      ((s₀.setJob i (job.onQueue s₀.stores (·.schedule job.envelope.nextAttempt (now + delay)))
        { job with pc := .ack }).redis.queues job.queue).sched := by
    simp [Job.onQueue, QueueState.schedule, QueueState.mem_zadd]
  obtain ⟨hcount, hdone⟩ := scheduled_not_early hrun₁ hm rfl hrun
  refine ⟨hcount.trans ?_, hdone⟩
  have hset := Indexed.countP_set_add (x := { job with pc := .ack })
    (fun j : Job => decide (j.envelope.taskId = job.envelope.taskId)) hjob
  simpa using hset

/-- The theorem at a retry that is due after a second, when the scheduler's clock has run for half
of it. -/
theorem retry_not_early_tick : ∃ s : Sys,
    s.jobs.countP (fun job => job.envelope.taskId = ⟨1⟩) = 1 ∧
      ∀ job ∈ s.jobs, job.envelope.taskId = ⟨1⟩ → job.Done := by
  obtain ⟨s₀, hrun, hlength, hchecks⟩ :=
    Transition.exists_run_of_check step init failedOnce
      (fun s => s.jobs.length = 1 ∧ ∀ job ∈ s.jobs, job.envelope.taskId = ⟨1⟩ ∧
        job.pc = .returned false (some "boom") ∧ job.retries (some "boom") = true ∧
        computeDelay job.envelope.retryPolicy (job.envelope.attempt + 1) 1 = some 1 ∧
        (Transition.run step s [.jobStep 0 (.ok 0 1), .promote "q" (1 / 2)]).isSome)
      (by decide +kernel)
  obtain ⟨job, hjobs⟩ := List.length_eq_one_iff.mp hlength
  obtain ⟨hid, hpc, hretries, hdelay, hsome⟩ := hchecks job (by simp [hjobs])
  obtain ⟨s₂, htick⟩ := Option.isSome_iff_exists.mp hsome
  obtain ⟨s₁, hstep, hrest⟩ := Option.bind_eq_some_iff.mp htick
  have hearly : ∀ a ∈ [Action.promote "q" (1 / 2)], ∀ u : Sys,
      u.Alone job.envelope.taskId a ∧ a.ReadsBefore (0 + 1) := by
    intro a ha u
    obtain rfl := List.mem_singleton.mp ha
    refine ⟨alone_of_ne (by simp) (by simp), ?_⟩
    norm_num [Action.ReadsBefore]
  obtain ⟨hcount, hdone⟩ := retry_not_early (.of_run alone_failedOnce hrun) (i := 0)
    (by simp [hjobs]) hpc hretries hdelay hstep (.of_run hearly hrest)
  rw [hid] at hcount hdone
  simp only [hjobs, List.countP_singleton, hid, decide_true, if_true] at hcount
  exact ⟨s₂, hcount, hdone⟩

end Sys

end Dtq
