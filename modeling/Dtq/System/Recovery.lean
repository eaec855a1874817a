import Mathlib.Algebra.Order.BigOperators.Group.Finset
import Dtq.System.Custody
import Dtq.System.Settling

/-!
# Recovery

Workers may die anywhere in `_process_message` and leave entries pending, leases held and
attempts open. When that is over and everybody still at work is dead or done, the
workers that are left can clear what remains: they adopt the pending entries, promote what
is scheduled and work through the streams, and every call they make returns, except a
statement that Postgres refuses because a dead worker has recorded the attempt already.

What is left of the retries bounds this: an attempt that cannot be recorded is scheduled
again with the next number. `compute_delay` overflows beyond attempt 1024, so the limits on
the attempts have to stay below it.

## Main results

* `Sys.Serving.progress` — the only party at work can go on
* `Sys.Quiet.exists_adopted`, `Sys.Quiet.exists_delivered` — one entry is dealt with completely
* `Sys.recovers` — nothing stays undelivered, pending or scheduled
-/

set_option autoImplicit false

namespace Dtq

/-! ### What becomes of one entry -/

namespace QueueState

variable {q₀ q : QueueState} {e e' : TaskEnvelope} {id : ℕ}

/-- What a job makes of its queue before it acknowledges: nothing, a scheduled retry that the
policy allows, or a dead letter. -/
inductive HandedOn (q₀ : QueueState) (e : TaskEnvelope) : QueueState → Prop
  | done : HandedOn q₀ e q₀
  | retried (runAt : ℚ) (hallowed : ((e.attempt + 1 : ℕ) : ℤ) < e.retryPolicy.maxAttempts) :
      HandedOn q₀ e (q₀.schedule e.nextAttempt runAt)
  | deadLettered (reason : String) : HandedOn q₀ e (q₀.deadLetter e reason)

/-- The queue while a job for entry `id` is at the call `pc`. -/
def ServedAt (q₀ : QueueState) (e : TaskEnvelope) (id : ℕ) (pc : Pc) (q : QueueState) : Prop :=
  match pc with
  | .markDead | .ack => HandedOn q₀ e q
  | .ended => ∃ q', HandedOn q₀ e q' ∧ q = q'.ack id
  | _ => q = q₀

@[simp] theorem servedAt_closePrior : ServedAt q₀ e id .closePrior q ↔ q = q₀ := Iff.rfl

@[simp] theorem servedAt_execute {pc : ExecutePc} : ServedAt q₀ e id (.execute pc) q ↔ q = q₀ :=
  Iff.rfl

@[simp] theorem servedAt_returned {success : Bool} {text : Option String} :
    ServedAt q₀ e id (.returned success text) q ↔ q = q₀ := Iff.rfl

@[simp] theorem servedAt_markDead : ServedAt q₀ e id .markDead q ↔ HandedOn q₀ e q := Iff.rfl

@[simp] theorem servedAt_ack : ServedAt q₀ e id .ack q ↔ HandedOn q₀ e q := Iff.rfl

namespace HandedOn

variable (h : HandedOn q₀ e q)

include h

theorem stream_eq : q.stream = q₀.stream := by cases h <;> rfl

theorem delivered_eq : q.delivered = q₀.delivered := by cases h <;> rfl

theorem pending_eq : q.pending = q₀.pending := by cases h <;> rfl

/-- What is handed on is another attempt of the same message. -/
theorem holds (he' : q.Holds e') : q₀.Holds e' ∨ e'.retryPolicy = e.retryPolicy := by
  cases h with
  | done => exact Or.inl he'
  | retried runAt =>
    rcases (Added.scheduled runAt).holds he' with hold | rfl
    · exact Or.inl hold
    · exact Or.inr e.nextAttempt_retryPolicy
  | deadLettered reason =>
    rcases he' with hstream | hsched | ⟨d, hd, rfl⟩
    · exact Or.inl (Or.inl hstream)
    · exact Or.inl (Or.inr (Or.inl hsched))
    · rcases List.mem_append.mp hd with hd | hd
      · exact Or.inl (Or.inr (Or.inr ⟨d, hd, rfl⟩))
      · rw [List.mem_singleton.mp hd]
        exact Or.inr rfl

/-- A retry weighs less than the message it is a retry of. -/
theorem load_lt : q.load < q₀.load + e.load := by
  have hpos : 0 < e.load := Nat.add_pos_left (by decide) _
  cases h with
  | done => omega
  | deadLettered reason =>
    rw [load_deadLetter]
    omega
  | retried runAt hallowed =>
    have hleft := TaskEnvelope.retriesLeft_nextAttempt hallowed
    have hle := q₀.load_schedule_le e.nextAttempt runAt
    simp only [TaskEnvelope.load] at hle ⊢
    omega

end HandedOn

end QueueState

/-! ### A job that is alone -/

namespace Job

variable {stores stores' : Stores} {locks : Locks} {job job' : Job}

/-- A call that returns brings the end nearer. -/
theorem Proceeds.callsAhead_lt (h : job.Proceeds stores locks stores' job') :
    job'.pc.callsAhead < job.pc.callsAhead := by
  cases h <;> simp [*, goto, returns, adopted, Pc.callsAhead]

/-- A call that returns keeps the job's entry, and its envelope but for the adoption. -/
theorem Proceeds.keeps (h : job.Proceeds stores locks stores' job') :
    job'.queue = job.queue ∧ job'.msgId = job.msgId ∧
      job'.envelope.retryPolicy = job.envelope.retryPolicy ∧
      job'.envelope.load ≤ job.envelope.load := by
  cases h with
  | closedPrior =>
    have hle := job.envelope.retriesLeft_nextAttempt_le
    refine ⟨rfl, rfl, job.envelope.nextAttempt_retryPolicy, ?_⟩
    simp only [adopted, TaskEnvelope.load]
    omega
  | _ => exact ⟨rfl, rfl, rfl, le_rfl⟩

/-- Only the reclaim loop leads to an acquisition. -/
theorem Proceeds.acquires (h : job.Proceeds stores locks stores' job')
    (hpc : job'.pc = .closePrior ∨ job'.pc = .execute .acquireLease) :
    job.pc = .closePrior ∧ stores'.redis = stores.redis ∧ job'.taskText = job.taskText := by
  cases h with
  | closedPrior now hprior => exact ⟨hprior, rfl, by simp [taskText, adopted]⟩
  | _ => simp [*, goto, returns] at hpc

/-- A call that returns takes the job's queue one step further. -/
theorem Proceeds.servedAt (q₀ : QueueState) (h : job.Proceeds stores locks stores' job')
    (hserved : q₀.ServedAt job.envelope job.msgId job.pc (stores.redis.queues job.queue)) :
    q₀.ServedAt job'.envelope job'.msgId job'.pc (stores'.redis.queues job'.queue) := by
  cases h with
  | ackedSuccess text hpc =>
    have hq : stores.redis.queues job.queue = q₀ := by simpa [hpc] using hserved
    exact ⟨q₀, .done, by simp [onQueue, hq]⟩
  | scheduledRetry text runAt hpc hretry =>
    have hq : stores.redis.queues job.queue = q₀ := by simpa [hpc] using hserved
    simp only [onQueue, Redis.modifyQueue_self, hq]
    exact .retried runAt (lt_maxAttempts_of_isRetryable hretry)
  | deadLettered text hpc =>
    have hq : stores.redis.queues job.queue = q₀ := by simpa [hpc] using hserved
    simp only [onQueue, Redis.modifyQueue_self, hq]
    exact .deadLettered _
  | markedDead hpc => simpa [hpc] using hserved
  | acked hpc =>
    rw [hpc] at hserved
    exact ⟨_, hserved, by simp [onQueue]⟩
  | _ => simpa [*, goto, returns, adopted, release] using hserved

/-- With no row locked and the limit on the attempts within what `compute_delay` can take, a
call returns, unless Postgres refuses a statement; then `execute` handles the exception. -/
theorem pc_of_proceed_eq_none (hlocks : ∀ taskId, locks.updating taskId = false)
    (hlimit : job.envelope.retryPolicy.maxAttempts ≤ 1024) {now draw : ℚ}
    (h : job.proceed stores locks now draw = none) (message : String) :
    job.pc = .ended ∨ job.pc = .execute .handlerRunning ∨
      ∃ prior pc, job.pc = .execute prior ∧ pc ≠ .acquireLease ∧
        job.raised message = some (job.goto pc) := by
  cases hpc : job.pc with
  | ended => exact Or.inl rfl
  | closePrior | ack => simp [proceed, hpc] at h
  | markDead => simp [proceed, hpc, hlocks] at h
  | returned success text =>
    exfalso
    cases success with
    | true => simp [proceed, hpc] at h
    | false =>
      simp only [proceed, hpc] at h
      split_ifs at h with hretry
      -- a retry is below the limit, where there is a delay
      have hlt := lt_maxAttempts_of_isRetryable hretry
      rw [computeDelay_eq, if_pos (by omega)] at h
      exact absurd h (by simp)
  | execute pc =>
    cases pc with
    | handlerRunning => exact Or.inr (Or.inl rfl)
    | recordAttempt | insertEffect =>
      simp only [raised, hpc, executeRaised]
      refine Or.inr (Or.inr ⟨_, _, rfl, ?_, rfl⟩)
      simp
    | acquireLease =>
      exfalso
      simp only [proceed, hpc, executeOk] at h
      split_ifs at h
    | selectEffect result =>
      exfalso
      simp only [proceed, hpc, executeOk] at h
      split at h <;> exact absurd h (by simp)
    | commitSuccess result committed =>
      exfalso
      cases committed <;> simp [proceed, hpc, executeOk, hlocks] at h
    | abandon | startHandler | closeFailed | rollback | releaseLease =>
      simp [proceed, hpc, executeOk] at h

end Job

namespace Sys

variable {s s' : Sys} {a : Action} {i : ℕ}

/-- Every call returns, unless Postgres refuses the statement; handlers return; only leases and
entries that nobody is at work on run out or are adopted, and leases do so before their task is
taken up again; and nothing new comes in. -/
def Healthy (s : Sys) : Action → Prop
  | .jobStep i (.ok _ _) => ∀ job ∈ s.jobs[i]?, job.pc = .execute .acquireLease →
      s.redis.leaseStore.leases job.taskText = none
  | .jobStep i (.raise false now draw _) => ∀ job ∈ s.jobs[i]?,
      job.proceed s.stores s.locks now draw = none
  | .adopt _ _ queue msgId => ∀ job ∈ s.jobs, job.Active → ¬ (job.queue = queue ∧ job.msgId = msgId)
  | .expire taskText => ∀ job ∈ s.jobs, job.Active → job.taskText ≠ taskText
  | .deliver _ _ _ | .promote _ _ | .handler _ (.returned _) => True
  | _ => False

/-- Nobody is at work. -/
structure Quiet (s : Sys) : Prop where
  jobs : ∀ job ∈ s.jobs, job.pc = .ended
  posts : ∀ post ∈ s.posts, post.Ended
  requeues : ∀ requeue ∈ s.requeues, requeue.pc = .ended

/-- Job `i` is the only one at work, on entry `id` of a queue. The queues were `q₀` when it took
over, and its message weighs no more than `weight`. -/
structure Serving (q₀ : String → QueueState) (queue : String) (id weight i : ℕ) (s : Sys)
    (job : Job) : Prop where
  entry : s.jobs[i]? = some job
  others : ∀ j other, j ≠ i → s.jobs[j]? = some other → other.pc = .ended
  posts : ∀ post ∈ s.posts, post.Ended
  requeues : ∀ requeue ∈ s.requeues, requeue.pc = .ended
  queue_eq : job.queue = queue
  msgId_eq : job.msgId = id
  load_le : job.envelope.load ≤ weight
  limit : job.envelope.retryPolicy.maxAttempts ≤ 1024
  free : job.pc = .closePrior ∨ job.pc = .execute .acquireLease →
    s.redis.leaseStore.leases job.taskText = none
  elsewhere : ∀ other ≠ queue, s.redis.queues other = q₀ other
  served : (q₀ queue).ServedAt job.envelope id job.pc (s.redis.queues queue)

namespace Serving

variable {q₀ : String → QueueState} {queue : String} {id weight : ℕ} {job job' : Job}

theorem not_updating (h : s.Serving q₀ queue id weight i job) (taskId : Uuid) :
    s.locks.updating taskId = false := by
  refine List.any_eq_false.mpr fun requeue hrequeue => ?_
  simp [Requeue.updating, h.requeues requeue hrequeue]

/-- The other parties do not see a job's step. -/
theorem setJob (h : s.Serving q₀ queue id weight i job) {stores : Stores}
    (hqueue : job'.queue = job.queue) (hmsg : job'.msgId = job.msgId)
    (hload : job'.envelope.load ≤ job.envelope.load)
    (hpolicy : job'.envelope.retryPolicy = job.envelope.retryPolicy)
    (hfree : job'.pc = .closePrior ∨ job'.pc = .execute .acquireLease →
      stores.redis.leaseStore.leases job'.taskText = none)
    (hothers : ∀ other ≠ job.queue, stores.redis.queues other = s.redis.queues other)
    (hserved : (q₀ queue).ServedAt job'.envelope id job'.pc (stores.redis.queues queue)) :
    (s.setJob i stores job').Serving q₀ queue id weight i job' where
  entry := Indexed.getElem?_set_of_eq h.entry
  others j other hj hother := by
    rw [setJob_jobs, Indexed.getElem?_set_of_ne hj] at hother
    exact h.others j other hj hother
  posts := h.posts
  requeues := h.requeues
  queue_eq := hqueue.trans h.queue_eq
  msgId_eq := hmsg.trans h.msgId_eq
  load_le := hload.trans h.load_le
  limit := hpolicy ▸ h.limit
  free := hfree
  elsewhere other hne := (hothers other (h.queue_eq ▸ hne)).trans (h.elsewhere other hne)
  served := hserved

/-- Inside `execute` nothing happens to the queues. -/
theorem goto (h : s.Serving q₀ queue id weight i job) {prior pc : ExecutePc}
    (hpc : job.pc = .execute prior) (hne : pc ≠ .acquireLease) :
    (s.setJob i s.stores (job.goto pc)).Serving q₀ queue id weight i (job.goto pc) := by
  have hserved := h.served
  rw [hpc, QueueState.servedAt_execute] at hserved
  refine h.setJob rfl rfl le_rfl rfl ?_ (fun _ _ => rfl) hserved
  simp [Job.goto, hne]

/-- A job that is alone can go on, in a healthy step that brings its end nearer. -/
theorem progress (h : s.Serving q₀ queue id weight i job) (hactive : job.pc ≠ .ended) :
    ∃ a s' job', Healthy s a ∧ s.step a = some s' ∧ s'.Serving q₀ queue id weight i job' ∧
      job'.pc.callsAhead < job.pc.callsAhead := by
  have hserved := h.served
  cases hproceed : job.proceed s.stores s.locks 0 0 with
  | some out =>
    -- the call returns
    have hproceeds := Job.proceeds_of_proceed hproceed
    obtain ⟨hqueue, hmsg, hpolicy, hload⟩ := hproceeds.keeps
    refine ⟨.jobStep i (.ok 0 0), _, out.2, ?_, step_of_proceed h.entry hproceed,
      h.setJob hqueue hmsg hload hpolicy ?_ ?_ ?_, hproceeds.callsAhead_lt⟩
    · intro job₁ hjob₁ hpc
      obtain rfl := Option.mem_unique h.entry hjob₁
      exact h.free (Or.inr hpc)
    · intro hpc
      obtain ⟨hprior, hredis, htext⟩ := hproceeds.acquires hpc
      rw [hredis, htext]
      exact h.free (Or.inl hprior)
    · exact fun _ hne => (Job.Moves.proceeds hproceeds).queues_of_ne hne
    · have hnext := hproceeds.servedAt (q₀ queue)
      rw [hqueue, hmsg, h.queue_eq, h.msgId_eq] at hnext
      exact hnext hserved
  | none =>
    obtain hended | hpc | ⟨prior, pc, hpc, hne, hraised⟩ :=
      Job.pc_of_proceed_eq_none h.not_updating h.limit hproceed ""
    · exact absurd hended hactive
    · -- the handler returns nothing
      have hends : job.handlerEnds (.returned none) = some (job.goto (.selectEffect none)) :=
        if_pos hpc
      have hne : ExecutePc.selectEffect none ≠ .acquireLease := by simp
      refine ⟨.handler i (.returned none), _, _, trivial, ?_, h.goto hpc hne,
        by simp [hpc, Job.goto, Pc.callsAhead]⟩
      simp [Sys.step, h.entry, hends]
    · -- the statement is refused, and `execute` handles the exception
      refine ⟨.jobStep i (.raise false 0 0 ""), _, _, ?_, ?_, h.goto hpc hne,
        (Job.raised_callsAhead hraised).1⟩
      · intro job₁ hjob₁
        obtain rfl := Option.mem_unique h.entry hjob₁
        exact hproceed
      · simp [Sys.step, h.entry, stepJob, hraised]

/-- A job that is alone comes to its end. -/
theorem exists_ended (h : s.Serving q₀ queue id weight i job) :
    ∃ t job', Transition.ReachesWhen step Healthy s t ∧
      t.Serving q₀ queue id weight i job' ∧ job'.pc = .ended := by
  have hprogress : ∀ u : Sys, (∃ job', u.Serving q₀ queue id weight i job') →
      (∃ job' ∈ u.jobs[i]?, job'.pc = .ended) ∨ ∃ a v, Healthy u a ∧ u.step a = some v ∧
        (∃ job', v.Serving q₀ queue id weight i job') ∧
          v.jobs[i]?.elim 0 (·.pc.callsAhead) < u.jobs[i]?.elim 0 (·.pc.callsAhead) := by
    rintro u ⟨job', hserving⟩
    by_cases hended : job'.pc = .ended
    · exact Or.inl ⟨job', hserving.entry, hended⟩
    · obtain ⟨a, v, next, ha, hstep, hnext, hlt⟩ := hserving.progress hended
      refine Or.inr ⟨a, v, ha, hstep, ⟨next, hnext⟩, ?_⟩
      rw [hserving.entry, hnext.entry]
      exact hlt
  obtain ⟨t, hreach, ⟨job', hserving⟩, ended, hended, hpc⟩ :=
    Transition.exists_reachesWhen_of_measure (fun u : Sys => u.jobs[i]?.elim 0 (·.pc.callsAhead))
      hprogress ⟨job, h⟩
  obtain rfl := Option.mem_unique hserving.entry hended
  exact ⟨t, job', hreach, hserving, hpc⟩

/-- When the job has ended, nobody is at work. -/
theorem quiet (h : s.Serving q₀ queue id weight i job) (hpc : job.pc = .ended) : s.Quiet where
  jobs other hother := by
    obtain ⟨j, hj⟩ := List.mem_iff_getElem?.mp hother
    by_cases hji : j = i
    · subst hji
      obtain rfl := Option.mem_unique h.entry hj
      exact hpc
    · exact h.others j other hji hj
  posts := h.posts
  requeues := h.requeues

end Serving

/-! ### One entry -/

/-- No more is delivered than there is, and only what has been delivered is pending. -/
structure Stocked (s : Sys) : Prop where
  delivered : ∀ queue, (s.redis.queues queue).delivered ≤ (s.redis.queues queue).stream.length
  pending : ∀ queue, ∀ p ∈ (s.redis.queues queue).pending,
    p.id < (s.redis.queues queue).delivered

theorem Stocked.step (h : s.Stocked) (hstep : s.step a = some s') : s'.Stocked :=
  ⟨fun queue => (moves_of_step hstep).delivered_le (h.delivered queue),
    fun queue => (moves_of_step hstep).pending_lt (h.pending queue)⟩

theorem Stocked.reaches (h : s.Stocked) (hreach : Transition.ReachesWhen Sys.step Healthy s s') :
    s'.Stocked :=
  hreach.invariant (fun _ _ _ h _ hstep => h.step hstep) h

/-- What is kept between two entries: nobody is at work, no entry is lost, and the limits stay
where they are. -/
structure Idle (s : Sys) : Prop extends s.Quiet, s.Stocked where
  limits : ∀ queue e, (s.redis.queues queue).Holds e → e.retryPolicy.maxAttempts ≤ 1024

theorem Quiet.not_active (h : s.Quiet) {job : Job} (hjob : job ∈ s.jobs) : ¬ job.Active :=
  fun hactive => hactive (h.jobs job hjob)

/-- A lease that was left behind runs out. -/
theorem Idle.exists_expired (h : s.Idle) (taskText : String) :
    ∃ t, Transition.ReachesWhen step Healthy s t ∧ t.Idle ∧ t.redis.queues = s.redis.queues ∧
      t.redis.leaseStore.leases taskText = none := by
  refine ⟨_, (Transition.ReachesWhen.refl s).tail (a := .expire taskText)
    (fun job hjob hactive => absurd hactive (h.not_active hjob)) rfl,
    ⟨⟨h.jobs, h.posts, h.requeues⟩, ⟨h.delivered, h.pending⟩, h.limits⟩, rfl, ?_⟩
  simp [LeaseStore.expireLease]

/-- A job that a quiet system starts is the only one at work. -/
theorem Quiet.serving_spawn (h : s.Quiet) {queue : String} (state : QueueState) {job : Job}
    (hqueue : job.queue = queue) (hpc : job.pc = .closePrior ∨ job.pc = .execute .acquireLease)
    (hlimit : job.envelope.retryPolicy.maxAttempts ≤ 1024)
    (hfree : s.redis.leaseStore.leases job.taskText = none) :
    (s.spawn queue state job).Serving (s.spawn queue state job).redis.queues queue job.msgId
      job.envelope.load s.jobs.length job where
  entry := by simp
  others j other hj hother := by
    rw [spawn_jobs] at hother
    rcases Nat.lt_or_ge j s.jobs.length with hlt | hge
    · rw [List.getElem?_append_left hlt] at hother
      exact h.jobs other (List.mem_of_getElem? hother)
    · rw [List.getElem?_eq_none (by simp; omega)] at hother
      simp at hother
  posts := h.posts
  requeues := h.requeues
  queue_eq := hqueue
  msgId_eq := rfl
  load_le := le_rfl
  limit := hlimit
  free _ := hfree
  elsewhere _ _ := rfl
  served := by rcases hpc with hpc | hpc <;> simp [hpc]

/-- A job that a quiet system starts deals with its entry completely: the entry is no longer
pending, and what is handed on weighs less. -/
theorem Idle.exists_served (h : s.Idle) {queue : String} {state : QueueState} {job : Job}
    (ha : Healthy s a) (hstep : s.step a = some (s.spawn queue state job))
    (hqueue : job.queue = queue) (hpc : job.pc = .closePrior ∨ job.pc = .execute .acquireLease)
    (hentry : (s.redis.queues queue).Holds job.envelope)
    (hholds : ∀ e, state.Holds e → (s.redis.queues queue).Holds e)
    (hfree : s.redis.leaseStore.leases job.taskText = none) :
    ∃ t, Transition.ReachesWhen step Healthy s t ∧ t.Idle ∧
      (∀ other ≠ queue, t.redis.queues other = s.redis.queues other) ∧
      (t.redis.queues queue).pending = state.pending.filter (fun p => p.id ≠ job.msgId) ∧
      (t.redis.queues queue).load < state.load + job.envelope.load := by
  have hserving := h.serving_spawn state hqueue hpc (h.limits queue _ hentry) hfree
  obtain ⟨t, job', hreach, hdone, hended⟩ := hserving.exists_ended
  have hrun := ((Transition.ReachesWhen.refl s).tail ha hstep).trans hreach
  have hserved := hdone.served
  rw [hended, spawn_redis, Redis.modifyQueue_self] at hserved
  obtain ⟨q, hhanded, hq⟩ := hserved
  have hothers : ∀ other ≠ queue, t.redis.queues other = s.redis.queues other := fun other hne => by
    rw [hdone.elsewhere other hne, spawn_redis, Redis.modifyQueue_of_ne _ _ hne]
  refine ⟨t, hrun, ⟨hdone.quiet hended, h.toStocked.reaches hrun, fun other e he => ?_⟩, hothers,
    ?_, ?_⟩
  · by_cases hother : other = queue
    · subst hother
      rw [hq] at he
      rcases hhanded.holds he with hold | hpolicy
      · exact h.limits other e (hholds e hold)
      · exact hpolicy ▸ hdone.limit
    · exact h.limits other e (hothers other hother ▸ he)
  · rw [hq, QueueState.ack, hhanded.pending_eq]
  · rw [hq, QueueState.load_ack]
    exact hhanded.load_lt.trans_le (Nat.add_le_add_left hdone.load_le _)

/-- The next entry of a stream can be delivered and dealt with. -/
theorem Idle.exists_delivered (h : s.Idle) {queue : String} {e : TaskEnvelope}
    (he : (s.redis.queues queue).stream[(s.redis.queues queue).delivered]? = some e) :
    ∃ t, Transition.ReachesWhen step Healthy s t ∧ t.Idle ∧
      (∀ other ≠ queue, t.redis.queues other = s.redis.queues other) ∧
      (t.redis.queues queue).pending = (s.redis.queues queue).pending ∧
      (t.redis.queues queue).load < (s.redis.queues queue).load := by
  obtain ⟨u, hexpired, hu, hqueues, hfree⟩ := h.exists_expired e.taskId.str
  rw [← hqueues] at he ⊢
  have hstep : u.step (.deliver "" 1 queue) = some (u.spawn queue
      { u.redis.queues queue with
        delivered := (u.redis.queues queue).delivered + 1
        pending := (u.redis.queues queue).pending ++ [⟨(u.redis.queues queue).delivered, ""⟩] }
      (deliveredJob "" 1 queue (u.redis.queues queue).delivered e (.execute .acquireLease))) := by
    simp only [Sys.step, QueueState.lease, he, Option.map_some]
    rfl
  obtain ⟨t, hreach, ht, hothers, hpending, hload⟩ := hu.exists_served (a := .deliver "" 1 queue)
    trivial hstep rfl (Or.inr rfl) (Or.inl (List.mem_of_getElem? he)) (fun _ => id) hfree
  refine ⟨t, hexpired.trans hreach, ht, hothers, ?_, ?_⟩
  · -- the entry is new on the pending list
    rw [hpending, List.filter_append, List.filter_eq_self.mpr fun p hp => ?_]
    · simp [deliveredJob]
    · exact decide_eq_true (hu.pending queue p hp).ne
  · rw [← QueueState.load_deliver _ he]
    exact hload

/-- A pending entry can be adopted and dealt with. -/
theorem Idle.exists_adopted (h : s.Idle) {queue : String} {p : Pending}
    (hp : p ∈ (s.redis.queues queue).pending) :
    ∃ t, Transition.ReachesWhen step Healthy s t ∧ t.Idle ∧
      (∀ other ≠ queue, t.redis.queues other = s.redis.queues other) ∧
      (t.redis.queues queue).pending.length < (s.redis.queues queue).pending.length := by
  have hlt := (h.pending queue p hp).trans_le (h.delivered queue)
  have he := List.getElem?_eq_getElem hlt
  generalize (s.redis.queues queue).stream[p.id] = e at he
  obtain ⟨u, hexpired, hu, hqueues, hfree⟩ := h.exists_expired e.taskId.str
  rw [← hqueues] at he hp ⊢
  have hstep : u.step (.adopt "" 1 queue p.id) = some (u.spawn queue
      { u.redis.queues queue with
        pending := (u.redis.queues queue).pending.map fun p' =>
          if p'.id = p.id then { p' with consumer := "" } else p' }
      (deliveredJob "" 1 queue p.id e .closePrior)) := by
    have hexists : ∃ p' ∈ (u.redis.queues queue).pending, p'.id = p.id := ⟨p, hp, rfl⟩
    simp only [Sys.step, QueueState.reclaim, if_pos hexists, he, Option.map_some]
    rfl
  obtain ⟨t, hreach, ht, hothers, hpending, -⟩ := hu.exists_served
    (a := .adopt "" 1 queue p.id) (fun job hjob hactive => absurd hactive (hu.not_active hjob))
    hstep rfl (Or.inl rfl) (Or.inl (List.mem_of_getElem? he)) (fun _ => id) hfree
  refine ⟨t, hexpired.trans hreach, ht, hothers, ?_⟩
  rw [hpending, List.filter_map, List.length_map]
  -- a change of consumer does not change which entries there are
  exact List.length_filter_lt_length_iff_exists.mpr ⟨p, hp, by simp [deliveredJob]⟩

/-! ### All that is left -/

/-- A step works on one queue at most. -/
theorem Moves.exists_queue (h : s.Moves a s') :
    ∃ queue, ∀ other ≠ queue, s'.redis.queues other = s.redis.queues other := by
  cases h with
  | @job _ _ job _ _ _ _ hmove => exact ⟨job.queue, fun _ hne => hmove.queues_of_ne hne⟩
  | @delivered _ _ queue | @adopted _ _ queue =>
    refine ⟨queue, fun other hne => ?_⟩
    rw [spawn_redis, Redis.modifyQueue_of_ne _ _ hne]
  | @produced queue => exact ⟨queue, fun other hne => Redis.modifyQueue_of_ne _ _ hne⟩
  | @promoted queue now =>
    exact ⟨queue, fun _ hne => Redis.modifyQueue_of_ne s.redis (·.promoteScheduled now) hne⟩
  | posted | requeued | cancelled | leases => exact ⟨"", fun _ _ => rfl⟩
  | @post _ _ post out ha hpost hmove =>
    refine ⟨post.req.queue, fun other hne => ?_⟩
    obtain ⟨hredis, -⟩ | ⟨e, -, -, hredis | ⟨at_, hredis⟩⟩ := hmove.sent_cases
    · rw [setPost_redis, hredis, stores_redis]
    · rw [setPost_redis, hredis, Redis.modifyQueue_of_ne _ _ hne, stores_redis]
    · rw [setPost_redis, hredis, Redis.modifyQueue_of_ne _ _ hne, stores_redis]
  | @requeue _ _ requeue _ _ _ hrequeue hmove =>
    refine ⟨requeue.queue, fun other hne => ?_⟩
    obtain hsame | ⟨e, -, -, hredis⟩ := hmove.redis_cases
    · rw [setRequeue_redis, hsame, stores_redis]
    · rw [setRequeue_redis, hredis, Redis.modifyQueue_of_ne _ _ hne, stores_redis]

/-- Only finitely many queues have been used. -/
theorem Reachable.exists_used (h : s.Reachable) :
    ∃ qs : Finset String, ∀ queue ∉ qs, s.redis.queues queue = {} := by
  refine Transition.Reaches.invariant
    (I := fun s : Sys => ∃ qs : Finset String, ∀ queue ∉ qs, s.redis.queues queue = {}) ?_ h
    ⟨∅, fun _ _ => rfl⟩
  rintro s a t ⟨qs, hqs⟩ hstep
  obtain ⟨queue, hothers⟩ := (moves_of_step hstep).exists_queue
  refine ⟨insert queue qs, fun other hother => ?_⟩
  rw [Finset.mem_insert, not_or] at hother
  rw [hothers other hother.1, hqs other hother.2]

theorem Reachable.stocked (h : s.Reachable) : s.Stocked :=
  Transition.Reaches.invariant (fun _ _ _ h hstep => Stocked.step h hstep) h
    ⟨by simp [init, Redis.empty], by simp [init, Redis.empty]⟩

/-- A step that lowers something on one queue and leaves the others alone lowers the total. -/
theorem sum_queues_lt {qs : Finset String} {queue : String} (f : QueueState → ℕ)
    (hqueue : queue ∈ qs) (hothers : ∀ other ≠ queue, s'.redis.queues other = s.redis.queues other)
    (hlt : f (s'.redis.queues queue) < f (s.redis.queues queue)) :
    ∑ q ∈ qs, f (s'.redis.queues q) < ∑ q ∈ qs, f (s.redis.queues q) := by
  refine Finset.sum_lt_sum (fun other _ => ?_) ⟨queue, hqueue, hlt⟩
  by_cases hother : other = queue
  · exact hother ▸ hlt.le
  · rw [hothers other hother]

/-- All queues outside of `qs` are as new. -/
def UsesOnly (qs : Finset String) (s : Sys) : Prop := ∀ queue ∉ qs, s.redis.queues queue = {}

theorem UsesOnly.mem {qs : Finset String} (h : s.UsesOnly qs) {queue : String}
    (hne : s.redis.queues queue ≠ {}) : queue ∈ qs :=
  by_contra fun hout => hne (h queue hout)

theorem UsesOnly.of_same {qs : Finset String} (h : s.UsesOnly qs) {queue : String}
    (hqueue : queue ∈ qs)
    (hothers : ∀ other ≠ queue, s'.redis.queues other = s.redis.queues other) :
    s'.UsesOnly qs := by
  intro other hout
  rw [hothers other fun heq => hout (heq ▸ hqueue)]
  exact h other hout

/-- The pending entries can all be dealt with. -/
theorem Idle.exists_nothing_pending {qs : Finset String} (h : s.Idle) (hused : s.UsesOnly qs) :
    ∃ t, Transition.ReachesWhen step Healthy s t ∧ (t.Idle ∧ t.UsesOnly qs) ∧
      ∀ queue, (t.redis.queues queue).pending = [] := by
  refine Transition.exists_reachesWhen_of_stages
    (fun u : Sys => ∑ q ∈ qs, (u.redis.queues q).pending.length) ?_ ⟨h, hused⟩
  rintro u ⟨hidle, hused⟩
  by_cases hnone : ∀ queue, (u.redis.queues queue).pending = []
  · exact Or.inl hnone
  · obtain ⟨queue, hsome⟩ := not_forall.mp hnone
    obtain ⟨p, hp⟩ := List.exists_mem_of_ne_nil _ hsome
    obtain ⟨t, hreach, ht, hothers, hlt⟩ := hidle.exists_adopted hp
    have hqueue : queue ∈ qs := hused.mem fun hnew => hsome (by rw [hnew])
    exact Or.inr ⟨t, hreach, ⟨ht, hused.of_same hqueue hothers⟩,
      sum_queues_lt (fun q => q.pending.length) hqueue hothers hlt⟩

/-- Something scheduled can be promoted. -/
theorem Idle.exists_promoted (h : s.Idle) {queue : String} {m : TaskEnvelope × ℚ}
    (hm : m ∈ (s.redis.queues queue).sched) :
    ∃ t, Transition.ReachesWhen step Healthy s t ∧ t.Idle ∧
      (∀ other ≠ queue, t.redis.queues other = s.redis.queues other) ∧
      (t.redis.queues queue).pending = (s.redis.queues queue).pending ∧
      (t.redis.queues queue).load < (s.redis.queues queue).load := by
  have hreach : Transition.ReachesWhen step Healthy s
      { s with redis := s.redis.modifyQueue queue (·.promoteScheduled m.2) } :=
    (Transition.ReachesWhen.refl s).tail (a := .promote queue m.2) trivial rfl
  have hothers : ∀ other ≠ queue,
      (s.redis.modifyQueue queue (·.promoteScheduled m.2)).queues other =
        s.redis.queues other := fun _ hne => Redis.modifyQueue_of_ne _ _ hne
  refine ⟨_, hreach, ⟨⟨h.jobs, h.posts, h.requeues⟩, h.toStocked.reaches hreach, ?_⟩, hothers,
    ?_, ?_⟩
  · intro other e he
    by_cases hother : other = queue
    · subst hother
      simp only [Redis.modifyQueue_self] at he
      exact h.limits other e (QueueState.holds_of_holds_promoteScheduled he)
    · exact h.limits other e (hothers other hother ▸ he)
  · simp only [Redis.modifyQueue_self, QueueState.promoteScheduled_eq]
  · have hle := (s.redis.queues queue).load_promoteScheduled_add_le m.2
    have hdue : (s.redis.queues queue).due m.2 100 ≠ [] := QueueState.due_ne_nil hm
    have hpos := List.length_pos_iff.mpr hdue
    simp only [Redis.modifyQueue_self]
    omega

/-- What is scheduled and what is on the streams can all be dealt with. -/
theorem Idle.exists_atRest {qs : Finset String} (h : s.Idle) (hused : s.UsesOnly qs)
    (hpending : ∀ queue, (s.redis.queues queue).pending = []) :
    ∃ t, Transition.ReachesWhen step Healthy s t ∧
      (t.Idle ∧ t.UsesOnly qs ∧ ∀ queue, (t.redis.queues queue).pending = []) ∧ t.AtRest := by
  refine Transition.exists_reachesWhen_of_stages
    (fun u : Sys => ∑ q ∈ qs, (u.redis.queues q).load) ?_ ⟨h, hused, hpending⟩
  rintro u ⟨hidle, hused, hpending⟩
  -- a stage on one queue after which its load is smaller
  have hstage : ∀ queue, u.redis.queues queue ≠ {} →
      (∃ t, Transition.ReachesWhen step Healthy u t ∧ t.Idle ∧
        (∀ other ≠ queue, t.redis.queues other = u.redis.queues other) ∧
        (t.redis.queues queue).pending = (u.redis.queues queue).pending ∧
        (t.redis.queues queue).load < (u.redis.queues queue).load) →
      ∃ t, Transition.ReachesWhen step Healthy u t ∧
        (t.Idle ∧ t.UsesOnly qs ∧ ∀ queue, (t.redis.queues queue).pending = []) ∧
          ∑ q ∈ qs, (t.redis.queues q).load < ∑ q ∈ qs, (u.redis.queues q).load := by
    rintro queue hne ⟨t, hreach, ht, hothers, hsame, hlt⟩
    have hqueue : queue ∈ qs := hused.mem hne
    refine ⟨t, hreach, ⟨ht, hused.of_same hqueue hothers, fun other => ?_⟩,
      sum_queues_lt QueueState.load hqueue hothers hlt⟩
    by_cases hother : other = queue
    · rw [hother, hsame, hpending]
    · rw [hothers other hother, hpending]
  by_cases hsched : ∃ queue m, m ∈ (u.redis.queues queue).sched
  · obtain ⟨queue, m, hm⟩ := hsched
    exact Or.inr (hstage queue (fun hnew => by simp [hnew] at hm) (hidle.exists_promoted hm))
  · by_cases hstream : ∃ queue,
        (u.redis.queues queue).delivered < (u.redis.queues queue).stream.length
    · obtain ⟨queue, hlt⟩ := hstream
      exact Or.inr (hstage queue (fun hnew => by simp [hnew] at hlt)
        (hidle.exists_delivered (List.getElem?_eq_getElem hlt)))
    · left
      refine ⟨hidle.jobs, hidle.posts, hidle.requeues, fun queue => ?_, fun queue => ?_⟩
      · exact Nat.not_lt.mp fun hlt => hstream ⟨queue, hlt⟩
      · exact List.eq_nil_iff_forall_not_mem.mpr fun m hm => hsched ⟨queue, m, hm⟩

/-- **Recovery.** Take any state the system can be in, after any crashes and failures, in which
everybody still at work has ended or died, and let the limits on the attempts be within what
`compute_delay` can take. Then healthy workers can clear everything that was left: a run leads
to a state in which nothing is undelivered, pending or scheduled. When no dead letter had been
requeued, every task that was ever accepted then has its effect or a dead letter. -/
theorem recovers (h : s.Reachable) (hquiet : s.Quiet)
    (hlimits : ∀ queue e, (s.redis.queues queue).Holds e → e.retryPolicy.maxAttempts ≤ 1024) :
    ∃ t, Transition.ReachesWhen step Healthy s t ∧ t.AtRest ∧
      (∀ queue, (t.redis.queues queue).pending = []) ∧
      (Transition.ReachesWhen step WithoutRequeue init s →
        ∀ queue e, (queue, e) ∈ s.enqueued →
          t.db.HasEffect e.effectKey ∨ ∃ d ∈ (t.redis.queues queue).dlq, e.SameTask d.1) := by
  obtain ⟨qs, hused⟩ := h.exists_used
  have hidle : s.Idle := ⟨hquiet, h.stocked, hlimits⟩
  obtain ⟨u, hfirst, ⟨hu, hused⟩, hnone⟩ := hidle.exists_nothing_pending hused
  obtain ⟨t, hsecond, ⟨ht, -, hnone⟩, hrest⟩ := hu.exists_atRest hused hnone
  have hrun := hfirst.trans hsecond
  refine ⟨t, hrun, hrest, hnone, fun hwithout queue e he => ?_⟩
  have hhealthy : ∀ s a, Healthy s a → WithoutRequeue s a := by
    intro s a ha
    cases a <;> first | rfl | exact ha.elim
  have hmem : (queue, e) ∈ t.enqueued := by
    have hgrow : s.enqueued <+: t.enqueued :=
      hrun.relation (R := fun s t : Sys => s.enqueued <+: t.enqueued)
        (fun _ => List.prefix_refl _) (fun _ _ _ => List.IsPrefix.trans)
        fun _ _ _ _ hstep => (moves_of_step hstep).enqueued_grow
    exact hgrow.subset he
  -- whoever carries the task now, it is not one of those that have been cleared
  rcases (custodyInv_of_reaches (hwithout.trans (hrun.mono hhealthy))).carried queue e hmem with
    (⟨k, e', hk, he', -⟩ | ⟨m, hm, -⟩ | hdlq) | ⟨p, hp, -⟩ | hdone
  · have hlt := (List.getElem?_eq_some_iff.mp he').1
    exact absurd (hrest.delivered queue) (by omega)
  · exact absurd (hrest.sched queue) (List.ne_nil_of_mem hm)
  · exact Or.inr hdlq
  · exact absurd (hnone queue) (List.ne_nil_of_mem hp)
  · exact Or.inl hdone

/-- The theorem at a state in which a worker has died in the middle of an attempt, another one
after it scheduled a retry, and a third message waits. -/
theorem recovers_crashes : ∃ s : Sys, (∀ job ∈ s.jobs, job.pc = .ended) ∧ s.db.effects = [] ∧
    ∃ t, Transition.ReachesWhen step Healthy s t ∧ ∀ queue e, (queue, e) ∈ s.enqueued →
      t.db.HasEffect e.effectKey ∨ ∃ d ∈ (t.redis.queues queue).dlq, e.SameTask d.1 := by
  obtain ⟨s, hrun, hjobs, hposts, hrequeues, heffects, hlimits⟩ :=
    Transition.exists_reachesWhen_of_check step WithoutRequeue init
      (accept 0 { queue := "q", taskName := "t", payload := .null } ⟨1⟩ ++
        accept 1 { queue := "q", taskName := "t", payload := .null } ⟨2⟩ ++
        accept 2 { queue := "q", taskName := "t", payload := .null } ⟨3⟩ ++
        [.deliver "a" 100 "q"] ++ proceeds 0 3 ++ [.jobStep 0 .crash] ++
        [.deliver "b" 100 "q"] ++ proceeds 1 3 ++ [.handler 1 (.raised "ValueError" "boom")] ++
        proceeds 1 3 ++ [.jobStep 1 .crash])
      (fun s => (∀ job ∈ s.jobs, job.pc = .ended) ∧ (∀ post ∈ s.posts, post.Ended) ∧
        s.requeues = [] ∧ s.db.effects = [] ∧
        ∀ x ∈ s.enqueued, x.2.retryPolicy.maxAttempts ≤ 1024)
      (by decide +kernel)
  have hcustody := custodyInv_of_reaches hrun
  obtain ⟨t, hreach, -, -, hdone⟩ :=
    recovers hrun.reaches ⟨hjobs, hposts, by simp [hrequeues]⟩ (fun queue e he => by
      -- every envelope has the policy it was enqueued with
      obtain ⟨e₀, he₀, hsame⟩ := hcustody.origin queue e he
      exact hsame.retryPolicy_eq ▸ hlimits _ he₀)
  exact ⟨s, hjobs, heffects, t, hreach, hdone hrun⟩

end Sys

end Dtq
