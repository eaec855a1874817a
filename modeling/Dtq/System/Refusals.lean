import Mathlib.Algebra.CharZero.Infinite
import Mathlib.Algebra.Order.Ring.Rat
import Dtq.System.Moves

/-!
# What becomes of a refused execution

`execute` reports two refusals as plain texts: the lease is held by somebody else, or a
newer effect is already committed. `_process_message` does not know them from any other
failure. It takes the text up to the first colon for the error's type, schedules a retry
with the attempt used up, or files a dead letter and marks the task dead.

The one case in which it does neither is an accident: from attempt 1024 on the delay of a
retry cannot be computed, and the exception ends the processing before anything is written.

## Main results

* `Sys.refused_delivery_inert_iff` — when a delivery that finds the task leased is inert
* `Sys.fence_rejection_harmless_iff` — when a fence-rejected execution does no more harm
-/

set_option autoImplicit false

namespace Dtq

namespace Job

/-- The delay before the next attempt cannot be computed: `2 ** attempt` does not fit a
float. -/
def delayOverflows (job : Job) : Prop := 1024 ≤ job.envelope.attempt

instance (job : Job) : Decidable job.delayOverflows := inferInstanceAs (Decidable (_ ≤ _))

theorem computeDelay_eq_none_iff {policy : RetryPolicy} {attempt : ℕ} {draw : ℚ} :
    computeDelay policy (attempt + 1) draw = none ↔ 1024 ≤ attempt := by
  simp [computeDelay]

end Job

/-- The messages of an envelope's task on the queue whose attempt is larger than the
envelope's, with the times they are scheduled for. -/
def QueueState.ahead (q : QueueState) (e : TaskEnvelope) :
    List TaskEnvelope × List (TaskEnvelope × ℚ) :=
  (q.stream.filter fun e' => e'.taskId = e.taskId ∧ e.attempt < e'.attempt,
    q.sched.filter fun m => m.1.taskId = e.taskId ∧ e.attempt < m.1.attempt)

namespace Sys

variable {s s' : Sys} {i : ℕ} {job : Job} {text : Option String}

/-- The steps of one job, however its calls are answered. -/
def OnlyJob (i : ℕ) (_ : Sys) (a : Action) : Prop := ∃ reply, a = .jobStep i reply

theorem reaches_of_proceeds {n : ℕ} (h : Transition.run step s (proceeds i n) = some s') :
    Transition.ReachesWhen step (OnlyJob i) s s' := by
  apply Transition.ReachesWhen.of_run ?_ h
  intro a ha u
  exact ⟨_, List.eq_of_mem_replicate ha⟩

/-- A step of a job: its call takes effect and returns or raises, it raises without
effect, or the worker dies. -/
theorem step_jobStep {reply : Reply} (hjob : s.jobs[i]? = some job)
    (h : s.step (.jobStep i reply) = some s') :
    (∃ now draw out, job.proceed s.stores s.locks now draw = some out ∧
      (s' = s.setJob i out.1 out.2 ∨ ∃ message failed, job.raised message = some failed ∧
        s' = s.setJob i out.1 { out.2 with pc := failed.pc, returned := failed.returned })) ∨
    (∃ message failed, job.raised message = some failed ∧ s' = s.setJob i s.stores failed) ∨
    job.Active ∧ s' = s.setJob i s.stores { job with pc := .ended } := by
  obtain ⟨job₁, hjob₁, hstep⟩ := Option.bind_eq_some_iff.mp h
  obtain rfl := Option.mem_unique hjob hjob₁
  cases reply with
  | ok now draw =>
    obtain ⟨out, hout, rfl⟩ := Option.map_eq_some_iff.mp hstep
    exact Or.inl ⟨now, draw, out, hout, Or.inl rfl⟩
  | raise applied now draw message =>
    cases applied with
    | false =>
      obtain ⟨failed, hfailed, rfl⟩ := Option.map_eq_some_iff.mp hstep
      exact Or.inr (Or.inl ⟨message, failed, hfailed, rfl⟩)
    | true =>
      obtain ⟨out, hout, hrest⟩ := Option.bind_eq_some_iff.mp hstep
      obtain ⟨failed, hfailed, rfl⟩ := Option.map_eq_some_iff.mp hrest
      exact Or.inl ⟨now, draw, out, hout, Or.inr ⟨message, failed, hfailed, rfl⟩⟩
  | crash =>
    simp only [stepJob] at hstep
    split_ifs at hstep with hactive
    exact Or.inr (Or.inr ⟨hactive, (Option.some.inj hstep).symm⟩)

/-! ### After `execute` has returned a failure -/

/-- What a failed execution writes when the next call returns: a retry at any time that
suits the clock, or a dead letter. -/
theorem exists_step_of_returned (hjob : s.jobs[i]? = some job)
    (hpc : job.pc = .returned false text)
    (hcond : ¬ (job.retries text = true ∧ job.delayOverflows)) (runAt : ℚ) :
    ∃ s', s.step (.jobStep i (.ok runAt 0)) = some s' ∧ s'.db = s.db ∧
      (s'.redis = s.redis.modifyQueue job.queue (·.schedule job.envelope.nextAttempt runAt) ∨
        s'.redis = s.redis.modifyQueue job.queue
          (·.deadLetter job.envelope (Job.deadLetterReason text))) := by
  cases hretry : job.retries text with
  | false =>
    have hout : job.proceed s.stores s.locks runAt 0 = some
        (job.onQueue s.stores (·.deadLetter job.envelope (Job.deadLetterReason text)),
          { job with pc := .markDead }) := by
      simp [Job.proceed, hpc, hretry]
    exact ⟨_, step_of_proceed hjob hout, rfl, Or.inr rfl⟩
  | true =>
    have hlt : job.envelope.attempt < 1024 := by
      by_contra hge
      exact hcond ⟨hretry, Nat.not_lt.mp hge⟩
    -- with a draw of zero the delay is zero, so the clock decides
    have hdelay : computeDelay job.envelope.retryPolicy (job.envelope.attempt + 1) 0 = some 0 := by
      simp [computeDelay, hlt]
    have hout : job.proceed s.stores s.locks runAt 0 = some
        (job.onQueue s.stores (·.schedule job.envelope.nextAttempt runAt),
          { job with pc := .ack }) := by
      simp [Job.proceed, hpc, hretry, hdelay]
    exact ⟨_, step_of_proceed hjob hout, rfl, Or.inl rfl⟩

/-- When the delay cannot be computed, no answer to the next call changes a store. -/
theorem stores_eq_of_overflow {reply : Reply} (hjob : s.jobs[i]? = some job)
    (hpc : job.pc = .returned false text) (hretry : job.retries text = true)
    (hoverflow : job.delayOverflows) (hstep : s.step (.jobStep i reply) = some s') :
    s' = s.setJob i s.stores { job with pc := .ended } := by
  have hnone : ∀ now draw, job.proceed s.stores s.locks now draw = none := by
    intro now draw
    have hdelay : computeDelay job.envelope.retryPolicy (job.envelope.attempt + 1) draw = none :=
      Job.computeDelay_eq_none_iff.mpr hoverflow
    simp [Job.proceed, hpc, hretry, hdelay]
  rcases step_jobStep hjob hstep with ⟨now, draw, out, hout, -⟩ | ⟨message, failed, hfailed, rfl⟩ |
    ⟨-, rfl⟩
  · simp [hnone] at hout
  · simp only [Job.raised, hpc] at hfailed
    rw [Option.some.inj hfailed]
  · rfl

/-- A message that has been given up makes no more steps. -/
theorem step_of_ended {reply : Reply} (hjob : s.jobs[i]? = some job) (hpc : job.pc = .ended) :
    s.step (.jobStep i reply) ≠ some s' := by
  intro hstep
  rcases step_jobStep hjob hstep with ⟨now, draw, out, hout, -⟩ | ⟨message, failed, hfailed, -⟩ |
    ⟨hactive, -⟩
  · simp [Job.proceed, hpc] at hout
  · simp [Job.raised, hpc] at hfailed
  · exact hactive hpc

/-- So far the job has left the tables and the queues as they were in `s`. -/
structure QuietSince (s : Sys) (i : ℕ) (e : TaskEnvelope) (at_ : Pc → Prop) (u : Sys) : Prop where
  db : u.db = s.db
  queues : u.redis.queues = s.redis.queues
  job : ∃ job, u.jobs[i]? = some job ∧ job.envelope = e ∧ at_ job.pc

theorem QuietSince.set {e : TaskEnvelope} {at_ : Pc → Prop} {u : Sys} {job' : Job}
    {stores : Stores} (h : s.QuietSince i e at_ u) (hdb : stores.db = u.db)
    (hqueues : stores.redis.queues = u.redis.queues) (he : job'.envelope = e)
    (hat : at_ job'.pc) : s.QuietSince i e at_ (u.setJob i stores job') := by
  obtain ⟨job, hjob, -, -⟩ := h.job
  refine ⟨hdb.trans h.db, hqueues.trans h.queues, job', ?_, he, hat⟩
  exact Indexed.getElem?_set_of_eq hjob

/-- A retry can be given a time at which nothing is scheduled yet. -/
theorem exists_unscheduled (q : QueueState) (e : TaskEnvelope) :
    ∃ runAt : ℚ, (e, runAt) ∉ q.sched := by
  obtain ⟨runAt, hrunAt⟩ := Infinite.exists_notMem_finset (q.sched.map Prod.snd).toFinset
  refine ⟨runAt, fun hmem => hrunAt ?_⟩
  exact List.mem_toFinset.mpr (List.mem_map_of_mem hmem)

/-! ### The lease is held by somebody else -/

/-- A refused acquisition changes nothing, and `execute` returns at once. -/
theorem step_of_refused {reply : Reply} {lease : Lease} (hjob : s.jobs[i]? = some job)
    (hpc : job.pc = .execute .acquireLease)
    (hheld : s.redis.leaseStore.leases job.taskText = some lease)
    (hstep : s.step (.jobStep i reply) = some s') :
    ∃ job', s' = s.setJob i s.stores job' ∧ job'.envelope = job.envelope ∧
      (job'.pc = .returned false (some "LeaseAcquireError: already held") ∨
        job'.pc = .ended) := by
  have hproceed : ∀ now draw, job.proceed s.stores s.locks now draw =
      some (s.stores, job.returns false (some "LeaseAcquireError: already held")) := by
    intro now draw
    have hacquire := LeaseStore.acquireLease_of_held _ job.taskText job.workerId job.leaseMs hheld
    simp [Job.proceed, hpc, Job.executeOk, hacquire, stores, Redis.withLeases]
  rcases step_jobStep hjob hstep with ⟨now, draw, out, hout, hafter⟩ |
    ⟨message, failed, hfailed, rfl⟩ | ⟨-, rfl⟩
  · obtain rfl := Option.mem_unique (hproceed now draw) hout
    rcases hafter with rfl | ⟨message, failed, hfailed, rfl⟩
    · exact ⟨_, rfl, rfl, Or.inl rfl⟩
    · simp only [Job.raised, hpc, Job.executeRaised] at hfailed
      obtain rfl := Option.some.inj hfailed
      exact ⟨_, rfl, rfl, Or.inr rfl⟩
  · simp only [Job.raised, hpc, Job.executeRaised] at hfailed
    obtain rfl := Option.some.inj hfailed
    exact ⟨_, rfl, rfl, Or.inr rfl⟩
  · exact ⟨_, rfl, rfl, Or.inr rfl⟩

/-- While the lease is held and the delay overflows, the job stays quiet to its end. -/
theorem quiet_of_refused {lease : Lease} (hjob : s.jobs[i]? = some job)
    (hpc : job.pc = .execute .acquireLease)
    (hheld : s.redis.leaseStore.leases job.taskText = some lease)
    (hretry : job.retries (some "LeaseAcquireError: already held") = true)
    (hoverflow : job.delayOverflows)
    (hrun : Transition.ReachesWhen step (OnlyJob i) s s') :
    s'.redis = s.redis ∧ s.QuietSince i job.envelope (fun pc => pc = .execute .acquireLease ∨
      pc = .returned false (some "LeaseAcquireError: already held") ∨ pc = .ended) s' := by
  apply hrun.invariant (I := fun u => u.redis = s.redis ∧ s.QuietSince i job.envelope _ u) ?_
    ⟨rfl, rfl, rfl, job, hjob, rfl, Or.inl hpc⟩
  rintro u a v ⟨hredis, hquiet⟩ ⟨reply, rfl⟩ hstep
  obtain ⟨now, hnow, he, hat⟩ := hquiet.job
  rcases hat with hat | hat | hat
  · -- the lease is still held, for nothing has been written
    have hheld' : u.redis.leaseStore.leases now.taskText = some lease := by
      rw [hredis, Job.taskText, he]
      exact hheld
    obtain ⟨next, rfl, hnext, hnextPc⟩ := step_of_refused hnow hat hheld' hstep
    exact ⟨hredis, hquiet.set rfl rfl (hnext.trans he) (Or.inr hnextPc)⟩
  · have hretry' : now.retries (some "LeaseAcquireError: already held") = true := by
      rw [Job.retries, he]
      exact hretry
    have hoverflow' : now.delayOverflows := by
      rw [Job.delayOverflows, he]
      exact hoverflow
    obtain rfl := stores_eq_of_overflow hnow hat hretry' hoverflow' hstep
    exact ⟨hredis, hquiet.set rfl rfl he (Or.inr (Or.inr rfl))⟩
  · exact absurd hstep (step_of_ended hnow hat)

/-- **A delivery that finds the task leased.** Take any state in which a job is about to
acquire a lease that is held. The processing of its message, however its calls are
answered, leaves the tables and the dead letters as they are and puts no message with a
larger attempt on a queue, exactly when the refusal counts as retryable and the delay of
the retry cannot be computed. In all other cases it uses up an attempt or files a dead
letter. -/
theorem refused_delivery_inert_iff (s : Sys) : ∀ i job, s.jobs[i]? = some job →
    job.pc = .execute .acquireLease →
    (s.redis.leaseStore.leases job.taskText).isSome = true →
    ((∀ s', Transition.ReachesWhen step (OnlyJob i) s s' →
        s'.db = s.db ∧ ∀ queue,
          (s'.redis.queues queue).dlq = (s.redis.queues queue).dlq ∧
          (s'.redis.queues queue).ahead job.envelope =
            (s.redis.queues queue).ahead job.envelope) ↔
      isRetryable job.envelope.retryPolicy "LeaseAcquireError" (job.envelope.attempt + 1) = true ∧
        1024 ≤ job.envelope.attempt) := by
  intro i job hjob hpc hheld
  obtain ⟨lease, hlease⟩ := Option.isSome_iff_exists.mp hheld
  have htype : errorTypeOf (some "LeaseAcquireError: already held") = "LeaseAcquireError" := by
    decide
  have hretries : job.retries (some "LeaseAcquireError: already held") =
      isRetryable job.envelope.retryPolicy "LeaseAcquireError" (job.envelope.attempt + 1) := by
    rw [Job.retries, htype]
  rw [← hretries]
  constructor
  · intro hinert
    by_contra hcond
    -- the acquisition is refused, and then the retry or the dead letter is written
    have hacquire := LeaseStore.acquireLease_of_held _ job.taskText job.workerId job.leaseMs hlease
    have hproceed : job.proceed s.stores s.locks 0 0 =
        some (s.stores, job.returns false (some "LeaseAcquireError: already held")) := by
      simp [Job.proceed, hpc, Job.executeOk, hacquire, stores, Redis.withLeases]
    have hfirst := step_of_proceed hjob hproceed
    obtain ⟨runAt, hrunAt⟩ :=
      exists_unscheduled (s.redis.queues job.queue) job.envelope.nextAttempt
    have hreturned : (s.setJob i s.stores
        (job.returns false (some "LeaseAcquireError: already held"))).jobs[i]? =
          some (job.returns false (some "LeaseAcquireError: already held")) :=
      Indexed.getElem?_set_of_eq hjob
    obtain ⟨s', hsecond, -, hredis⟩ := exists_step_of_returned hreturned rfl hcond runAt
    have hreach : Transition.ReachesWhen step (OnlyJob i) s s' :=
      ((Transition.ReachesWhen.refl s).tail ⟨_, rfl⟩ hfirst).tail ⟨_, rfl⟩ hsecond
    obtain ⟨-, hqueues⟩ := hinert s' hreach
    obtain ⟨hdlq, hahead⟩ := hqueues job.queue
    rcases hredis with hredis | hredis
    · have hmem : (job.envelope.nextAttempt, runAt) ∈
          ((s'.redis.queues job.queue).ahead job.envelope).2 := by
        rw [hredis]
        refine List.mem_filter.mpr ⟨?_, by simp⟩
        simp [Job.returns, QueueState.schedule, QueueState.mem_zadd]
      rw [hahead] at hmem
      exact hrunAt (List.mem_filter.mp hmem).1
    · rw [hredis] at hdlq
      simp [Job.returns, QueueState.deadLetter] at hdlq
  · rintro ⟨hretry, hoverflow⟩ s' hrun
    obtain ⟨-, hquiet⟩ := quiet_of_refused hjob hpc hlease hretry hoverflow hrun
    refine ⟨hquiet.db, fun queue => ?_⟩
    rw [hquiet.queues]
    exact ⟨rfl, rfl⟩

/-- An envelope that is 1023 attempts old and may be attempted 5000 times. -/
def agedEnvelope : TaskEnvelope :=
  { taskId := ⟨1⟩
    queue := "q"
    taskName := "t"
    payload := .null
    attempt := 1023
    retryPolicy := { maxAttempts := 5000 }
    createdAt := 0 }

/-- The theorem at an envelope so many attempts old that its retry cannot be timed: worker
`a` holds the lease, worker `b` has adopted the entry and is refused. -/
theorem refused_delivery_inert_iff_overflow : ∃ (s : Sys) (job : Job), s.Reachable ∧
    s.jobs[1]? = some job ∧ job.pc = .execute .acquireLease ∧
    (s.redis.leaseStore.leases job.taskText).isSome = true ∧
    ∀ s', Transition.ReachesWhen step (OnlyJob 1) s s' → s'.db = s.db := by
  obtain ⟨s, hrun, hcheck⟩ := Transition.exists_run_of_check step init
    ([.produce "q" agedEnvelope none, .deliver "a" 100 "q"] ++ proceeds 0 1 ++
      [.adopt "b" 100 "q" 0] ++ proceeds 1 1)
    (fun s => s.jobs[1]?.any fun job => job.pc = .execute .acquireLease ∧
      (s.redis.leaseStore.leases job.taskText).isSome = true ∧
      isRetryable job.envelope.retryPolicy "LeaseAcquireError" (job.envelope.attempt + 1) = true ∧
        1024 ≤ job.envelope.attempt) (by decide +kernel)
  obtain ⟨job, hjob, hjobCheck⟩ := (Option.any_eq_true _ _).mp hcheck
  obtain ⟨hpc, hheld, hcond⟩ := of_decide_eq_true hjobCheck
  refine ⟨s, job, .of_run hrun, hjob, hpc, hheld, fun s' hreach => ?_⟩
  exact ((refused_delivery_inert_iff s 1 job hjob hpc hheld).mpr hcond s' hreach).1

/-- A task that is being executed is marked dead: worker `a` runs its only attempt and holds
the lease, worker `b` has adopted the entry, is refused, files a dead letter and marks the
task dead. -/
theorem leased_task_marked_dead : ∃ s s' : Sys, s.Reachable ∧
    (∃ job, s.jobs[0]? = some job ∧ job.pc = .execute .handlerRunning ∧
      (s.redis.leaseStore.leases job.taskText).isSome = true) ∧
    (∃ job, s.jobs[1]? = some job ∧ job.pc = .execute .acquireLease) ∧
    s.db.tasks.map TaskRow.state = [.leased] ∧ (s.redis.queues "q").dlq = [] ∧
    Transition.ReachesWhen step (OnlyJob 1) s s' ∧
    s'.db.tasks.map TaskRow.state = [.dead] ∧ (s'.redis.queues "q").dlq ≠ [] := by
  obtain ⟨s, hrun, hrunning, hrefused, hleased, hdlq, hdead⟩ :=
    Transition.exists_run_of_check step init
    (accept 0 { queue := "q", taskName := "t", payload := .null, maxAttempts := 1 } ⟨1⟩ ++
      [.deliver "a" 100 "q"] ++ proceeds 0 3 ++ [.adopt "b" 100 "q" 0] ++ proceeds 1 1)
    (fun s => (s.jobs[0]?.any fun job => job.pc = .execute .handlerRunning ∧
        (s.redis.leaseStore.leases job.taskText).isSome = true) ∧
      (s.jobs[1]?.any fun job => job.pc = .execute .acquireLease) ∧
      s.db.tasks.map TaskRow.state = [.leased] ∧ (s.redis.queues "q").dlq = [] ∧
      (Transition.run step s (proceeds 1 4)).any fun s' =>
        s'.db.tasks.map TaskRow.state = [.dead] ∧ (s'.redis.queues "q").dlq ≠ [])
    (by decide +kernel)
  obtain ⟨job, hjob, hjobCheck⟩ := (Option.any_eq_true _ _).mp hrunning
  obtain ⟨other, hother, hotherCheck⟩ := (Option.any_eq_true _ _).mp hrefused
  obtain ⟨s', hrun', hafter⟩ := (Option.any_eq_true _ _).mp hdead
  obtain ⟨hstate', hdlq'⟩ := of_decide_eq_true hafter
  exact ⟨s, s', .of_run hrun, ⟨job, hjob, of_decide_eq_true hjobCheck⟩,
    ⟨other, hother, of_decide_eq_true hotherCheck⟩, hleased, hdlq, reaches_of_proceeds hrun',
    hstate', hdlq'⟩

/-! ### The effect is already committed with a higher fence -/

/-- A rollback leads to the release of the lease, whatever becomes of it. -/
theorem step_of_rollback {reply : Reply} {text : String} (hjob : s.jobs[i]? = some job)
    (hpc : job.pc = .execute (.rollback text)) (hstep : s.step (.jobStep i reply) = some s') :
    ∃ job', s' = s.setJob i s.stores job' ∧ job'.envelope = job.envelope ∧
      (job'.pc = .execute (.releaseLease false (some text)) ∨ job'.pc = .ended) := by
  have hfailed : ∀ message, job.raised message = some { job with pc := .ended } := by
    intro message
    simp [Job.raised, hpc, Job.executeRaised]
  rcases step_jobStep hjob hstep with ⟨now, draw, out, hout, hafter⟩ |
    ⟨message, failed, hraised, rfl⟩ | ⟨-, rfl⟩
  · simp only [Job.proceed, hpc, Job.executeOk] at hout
    obtain rfl := Option.some.inj hout
    rcases hafter with rfl | ⟨message, failed, hraised, rfl⟩
    · exact ⟨_, rfl, rfl, Or.inl rfl⟩
    · obtain rfl := Option.mem_unique (hfailed message) hraised
      exact ⟨_, rfl, rfl, Or.inr rfl⟩
  · obtain rfl := Option.mem_unique (hfailed message) hraised
    exact ⟨_, rfl, rfl, Or.inr rfl⟩
  · exact ⟨_, rfl, rfl, Or.inr rfl⟩

/-- The release changes no queue and no table. -/
theorem step_of_releaseLease {reply : Reply} {text : Option String}
    (hjob : s.jobs[i]? = some job) (hpc : job.pc = .execute (.releaseLease false text))
    (hstep : s.step (.jobStep i reply) = some s') :
    ∃ stores job', s' = s.setJob i stores job' ∧ stores.db = s.db ∧
      stores.redis.queues = s.redis.queues ∧ job'.envelope = job.envelope ∧
      (job'.pc = .returned false text ∨ job'.pc = .ended) := by
  have hfailed : ∀ message, job.raised message = some { job with pc := .ended } := by
    intro message
    simp [Job.raised, hpc, Job.executeRaised]
  rcases step_jobStep hjob hstep with ⟨now, draw, out, hout, hafter⟩ |
    ⟨message, failed, hraised, rfl⟩ | ⟨-, rfl⟩
  · simp only [Job.proceed, hpc, Job.executeOk] at hout
    obtain rfl := Option.some.inj hout
    rcases hafter with rfl | ⟨message, failed, hraised, rfl⟩
    · exact ⟨_, _, rfl, rfl, rfl, rfl, Or.inl rfl⟩
    · obtain rfl := Option.mem_unique (hfailed message) hraised
      exact ⟨_, _, rfl, rfl, rfl, rfl, Or.inr rfl⟩
  · obtain rfl := Option.mem_unique (hfailed message) hraised
    exact ⟨_, _, rfl, rfl, rfl, rfl, Or.inr rfl⟩
  · exact ⟨_, _, rfl, rfl, rfl, rfl, Or.inr rfl⟩

/-- When the delay overflows, a rejected job stays quiet to its end. -/
theorem quiet_of_rejected {text : String} (hjob : s.jobs[i]? = some job)
    (hpc : job.pc = .execute (.rollback text)) (hretry : job.retries (some text) = true)
    (hoverflow : job.delayOverflows) (hrun : Transition.ReachesWhen step (OnlyJob i) s s') :
    s.QuietSince i job.envelope (fun pc => pc = .execute (.rollback text) ∨
      pc = .execute (.releaseLease false (some text)) ∨ pc = .returned false (some text) ∨
      pc = .ended) s' := by
  apply hrun.invariant (I := fun u => s.QuietSince i job.envelope _ u) ?_
    ⟨rfl, rfl, job, hjob, rfl, Or.inl hpc⟩
  rintro u a v hquiet ⟨reply, rfl⟩ hstep
  obtain ⟨now, hnow, he, hat⟩ := hquiet.job
  rcases hat with hat | hat | hat | hat
  · obtain ⟨next, rfl, hnext, hnextPc⟩ := step_of_rollback hnow hat hstep
    refine hquiet.set rfl rfl (hnext.trans he) ?_
    rcases hnextPc with hnextPc | hnextPc
    · exact Or.inr (Or.inl hnextPc)
    · exact Or.inr (Or.inr (Or.inr hnextPc))
  · obtain ⟨stores, next, rfl, hdb, hqueues, hnext, hnextPc⟩ :=
      step_of_releaseLease hnow hat hstep
    exact hquiet.set hdb hqueues (hnext.trans he) (Or.inr (Or.inr hnextPc))
  · have hretry' : now.retries (some text) = true := by
      rw [Job.retries, he]
      exact hretry
    have hoverflow' : now.delayOverflows := by
      rw [Job.delayOverflows, he]
      exact hoverflow
    obtain rfl := stores_eq_of_overflow hnow hat hretry' hoverflow' hstep
    exact hquiet.set rfl rfl he (Or.inr (Or.inr (Or.inr rfl)))
  · exact absurd hstep (step_of_ended hnow hat)

/-- Without faults a rejected job gets to the point where `execute` has returned. -/
theorem exists_returned_of_rollback {text : String} (hjob : s.jobs[i]? = some job)
    (hpc : job.pc = .execute (.rollback text)) :
    ∃ s', Transition.ReachesWhen step (OnlyJob i) s s' ∧
      s'.redis.queues = s.redis.queues ∧
      s'.jobs[i]? = some (job.returns false (some text)) := by
  have hrollback : job.proceed s.stores s.locks 0 0 =
      some (s.stores, job.goto (.releaseLease false (some text))) := by
    simp [Job.proceed, hpc, Job.executeOk]
  have hfirst := step_of_proceed hjob hrollback
  have hreleasing : (s.setJob i s.stores (job.goto (.releaseLease false (some text)))).jobs[i]? =
      some (job.goto (.releaseLease false (some text))) := Indexed.getElem?_set_of_eq hjob
  have hrelease : (job.goto (.releaseLease false (some text))).proceed s.stores
      (s.setJob i s.stores (job.goto (.releaseLease false (some text)))).locks 0 0 =
        some (job.release s.stores, job.returns false (some text)) := rfl
  have hsecond := step_of_proceed hreleasing hrelease
  refine ⟨_, ((Transition.ReachesWhen.refl s).tail ⟨_, rfl⟩ hfirst).tail ⟨_, rfl⟩ hsecond, rfl, ?_⟩
  exact Indexed.getElem?_set_of_eq hreleasing

/-- **A fence-rejected execution.** `FenceRejectedError` declares itself not retryable. Yet
take any state in which a job's `commit_effect` finds a row with a higher fence and raises
it: what `_process_message` does from then on, however its calls are answered, schedules no
retry, files no dead letter and leaves the tasks as they were exactly when the beginning of
the error's text counts as retryable and the delay of the retry cannot be computed. -/
theorem fence_rejection_harmless_iff (s : Sys) :
    DtqError.fenceRejectedError.retryable = false ∧
    ∀ i job result row now draw s₁, s.jobs[i]? = some job →
      job.pc = .execute (.selectEffect result) → s.db.findEffect job.key = some row →
      job.fence < row.fence → s.step (.jobStep i (.ok now draw)) = some s₁ →
      ((∀ s', Transition.ReachesWhen step (OnlyJob i) s₁ s' →
          s'.db.tasks = s.db.tasks ∧ ∀ queue,
            (s'.redis.queues queue).sched = (s.redis.queues queue).sched ∧
            (s'.redis.queues queue).dlq = (s.redis.queues queue).dlq) ↔
        isRetryable job.envelope.retryPolicy
            (errorTypeOf (some (Db.fenceRejectedText job.key row.fence job.fence)))
            (job.envelope.attempt + 1) = true ∧
          1024 ≤ job.envelope.attempt) := by
  refine ⟨rfl, ?_⟩
  intro i job result row now draw s₁ hjob hpc hrow hlt hstep
  generalize htext : Db.fenceRejectedText job.key row.fence job.fence = text
  -- the lookup raises, and the job rolls back
  have hselect : job.proceed s.stores s.locks now draw =
      some (s.stores, job.goto (.rollback text)) := by
    have hcheck : s.db.checkEffect job.key job.fence = .rejected text := by
      simp [Db.checkEffect, hrow, hlt, htext]
    simp [Job.proceed, hpc, Job.executeOk, hcheck]
  obtain rfl := Option.mem_unique (step_of_proceed hjob hselect) hstep
  have hrejected : (s.setJob i s.stores (job.goto (.rollback text))).jobs[i]? =
      some (job.goto (.rollback text)) := Indexed.getElem?_set_of_eq hjob
  constructor
  · intro hharmless
    by_contra hcond
    obtain ⟨s₂, hreach₂, hqueues₂, hreturned⟩ := exists_returned_of_rollback hrejected rfl
    obtain ⟨runAt, hrunAt⟩ :=
      exists_unscheduled (s.redis.queues job.queue) job.envelope.nextAttempt
    obtain ⟨s', hlast, -, hredis⟩ := exists_step_of_returned hreturned rfl hcond runAt
    obtain ⟨-, hqueues⟩ := hharmless s' (hreach₂.tail ⟨_, rfl⟩ hlast)
    obtain ⟨hsched, hdlq⟩ := hqueues job.queue
    rcases hredis with hredis | hredis
    · apply hrunAt
      rw [← hsched, hredis]
      simp [Job.returns, Job.goto, QueueState.schedule, QueueState.mem_zadd]
    · rw [hredis] at hdlq
      simp [Job.returns, Job.goto, QueueState.deadLetter, hqueues₂] at hdlq
  · rintro ⟨hretry, hoverflow⟩ s' hrun
    have hquiet := quiet_of_rejected hrejected rfl hretry hoverflow hrun
    refine ⟨congrArg Db.tasks hquiet.db, fun queue => ?_⟩
    rw [hquiet.queues]
    exact ⟨rfl, rfl⟩

/-- A task with a dedup key that may be attempted once. Worker `a` stalls in the handler and
its lease expires; worker `b` adopts the entry, runs the handler and commits under a higher
fence; the handler of `a` returns. -/
def stalledAndOvertaken : List Action :=
  accept 0 { queue := "q", taskName := "t", payload := .null, dedupKey := some "k",
             maxAttempts := 1 } ⟨1⟩ ++
    [.deliver "a" 100 "q"] ++ proceeds 0 3 ++ [.expire (Uuid.str ⟨1⟩), .adopt "b" 100 "q" 0] ++
    proceeds 1 4 ++ [.handler 1 (.returned none)] ++ proceeds 1 3 ++ [.handler 0 (.returned none)]

/-- The theorem at a zombie on its first attempt: the rejection does harm. -/
theorem fence_rejection_harmless_iff_first : ∃ (s s₁ : Sys) (job : Job), s.Reachable ∧
    s.jobs[0]? = some job ∧ s.step (.jobStep 0 (.ok 0 0)) = some s₁ ∧
    ¬ ∀ s', Transition.ReachesWhen step (OnlyJob 0) s₁ s' →
      s'.db.tasks = s.db.tasks ∧ ∀ queue,
        (s'.redis.queues queue).sched = (s.redis.queues queue).sched ∧
        (s'.redis.queues queue).dlq = (s.redis.queues queue).dlq := by
  obtain ⟨s, hrun, hcheck, hsome⟩ := Transition.exists_run_of_check step init stalledAndOvertaken
    (fun s => (s.jobs[0]?.any fun job => job.pc = .execute (.selectEffect none) ∧
      (s.db.findEffect job.key).any (fun row => job.fence < row.fence) ∧
        ¬ 1024 ≤ job.envelope.attempt) ∧
      (s.step (.jobStep 0 (.ok 0 0))).isSome) (by decide +kernel)
  obtain ⟨job, hjob, hjobCheck⟩ := (Option.any_eq_true _ _).mp hcheck
  obtain ⟨hpc, hnewer, hyoung⟩ := of_decide_eq_true hjobCheck
  obtain ⟨row, hrow, hlt⟩ := (Option.any_eq_true _ _).mp hnewer
  obtain ⟨s₁, hs₁⟩ := Option.isSome_iff_exists.mp hsome
  refine ⟨s, s₁, job, .of_run hrun, hjob, hs₁, fun hharmless => hyoung ?_⟩
  have hiff := (fence_rejection_harmless_iff s).2 0 job none row 0 0 s₁ hjob hpc hrow
    (of_decide_eq_true hlt) hs₁
  exact (hiff.mp hharmless).2

/-- A zombie that marks a succeeded task dead: its commit is refused with
`FenceRejectedError`, no attempts are left, and the task whose effect is committed is
dead-lettered. -/
theorem success_marked_dead : ∃ (s s' : Sys) (job : Job), s.Reachable ∧ s.jobs[0]? = some job ∧
    job.pc = .execute (.rollback (Db.fenceRejectedText "k" 2 1)) ∧
    s.db.tasks.map TaskRow.state = [.succeeded] ∧ (s.redis.queues "q").dlq = [] ∧
    Transition.ReachesWhen step (OnlyJob 0) s s' ∧
    s'.db.tasks.map TaskRow.state = [.dead] ∧ (s'.redis.queues "q").dlq ≠ [] := by
  obtain ⟨s, hrun, hcheck, hsucceeded, hdlq, hdead⟩ := Transition.exists_run_of_check step init
    (stalledAndOvertaken ++ proceeds 0 1)
    (fun s => (s.jobs[0]?.any fun job =>
        job.pc = .execute (.rollback (Db.fenceRejectedText "k" 2 1))) ∧
      s.db.tasks.map TaskRow.state = [.succeeded] ∧ (s.redis.queues "q").dlq = [] ∧
      (Transition.run step s (proceeds 0 4)).any fun s' =>
        s'.db.tasks.map TaskRow.state = [.dead] ∧ (s'.redis.queues "q").dlq ≠ [])
    (by decide +kernel)
  obtain ⟨job, hjob, hjobCheck⟩ := (Option.any_eq_true _ _).mp hcheck
  obtain ⟨s', hrun', hafter⟩ := (Option.any_eq_true _ _).mp hdead
  obtain ⟨hstate', hdlq'⟩ := of_decide_eq_true hafter
  exact ⟨s, s', job, .of_run hrun, hjob, of_decide_eq_true hjobCheck, hsucceeded, hdlq,
    reaches_of_proceeds hrun', hstate', hdlq'⟩

end Sys

end Dtq
