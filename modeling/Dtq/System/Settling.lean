import Mathlib.Algebra.BigOperators.Group.Finset.Basic
import Mathlib.Algebra.Order.BigOperators.Group.List
import Dtq.System.Enqueue
import Dtq.System.Queues

/-!
# The system settles

Retries are bounded, so what is on the queues keeps the workers busy only for so long. Here
the work that is left is weighed: a message by the calls of one execution and by the retries
its policy still allows, a job or a request by the calls ahead of it. Every step of a party
lowers the weight, whether its call returns or raises or the party dies. What adds to it is a
new request, another producer, and the adoption of a pending entry.

So between two of these every run comes to rest, and at rest nobody is at work, everything
has been delivered and nothing is scheduled.

## Main results

* `Sys.Within.step` — a step does not raise the load, and the step of a party lowers it
* `Sys.Reachable.exists_within` — in every reachable state the load is finite
* `Sys.settles` — between two arrivals there are finitely many steps, and then rest
-/

set_option autoImplicit false

namespace Dtq

/-! ### The load of a message -/

/-- How many more attempts the policy allows after the one that the envelope starts. -/
def TaskEnvelope.retriesLeft (e : TaskEnvelope) : ℕ :=
  (e.retryPolicy.maxAttempts - e.attemptNo).toNat

/-- The work in a message: its delivery, the calls of one execution, and as much for each
retry. -/
def TaskEnvelope.load (e : TaskEnvelope) : ℕ := 13 + 15 * e.retriesLeft

theorem TaskEnvelope.retriesLeft_nextAttempt_le (e : TaskEnvelope) :
    e.nextAttempt.retriesLeft ≤ e.retriesLeft := by
  simp only [retriesLeft, attemptNo, nextAttempt_attempt, nextAttempt_retryPolicy]
  omega

/-- A retry that is allowed uses one up. -/
theorem TaskEnvelope.retriesLeft_nextAttempt {e : TaskEnvelope}
    (h : ((e.attempt + 1 : ℕ) : ℤ) < e.retryPolicy.maxAttempts) :
    e.nextAttempt.retriesLeft + 1 = e.retriesLeft := by
  simp only [retriesLeft, attemptNo, nextAttempt_attempt, nextAttempt_retryPolicy]
  omega

namespace QueueState

variable {q q' : QueueState} {e : TaskEnvelope}

/-- What has not been delivered, and what has to be promoted first. -/
def load (q : QueueState) : ℕ :=
  ((q.stream.drop q.delivered).map TaskEnvelope.load).sum +
    (q.sched.map fun m => m.1.load + 1).sum

theorem load_publish_le (q : QueueState) (e : TaskEnvelope) :
    (q.publish e).load ≤ q.load + e.load := by
  have hdrop : ((q.stream ++ [e]).drop q.delivered).Sublist (q.stream.drop q.delivered ++ [e]) := by
    rw [List.drop_append]
    exact (List.Sublist.refl _).append (List.drop_sublist _ _)
  have hle := (hdrop.map TaskEnvelope.load).sum_le_sum fun _ _ => Nat.zero_le _
  simp only [List.map_append, List.map_cons, List.map_nil, List.sum_append, List.sum_cons,
    List.sum_nil] at hle
  simp only [load, publish]
  omega

theorem load_schedule_le (q : QueueState) (e : TaskEnvelope) (runAt : ℚ) :
    (q.schedule e runAt).load ≤ q.load + (e.load + 1) := by
  have hrest : (q.sched.filter fun m => m.1 ≠ e).Sublist q.sched := List.filter_sublist
  have hle := (hrest.map fun m => m.1.load + 1).sum_le_sum fun _ _ => Nat.zero_le _
  have hsplit := congrArg (fun l => (l.map fun m => m.1.load + 1).sum)
    (List.takeWhile_append_dropWhile (p := fun m : TaskEnvelope × ℚ => m.2 ≤ runAt)
      (l := q.sched.filter fun m => m.1 ≠ e))
  simp only [List.map_append, List.sum_append] at hsplit
  simp only [load, schedule, zadd, List.map_append, List.map_cons, List.sum_append, List.sum_cons]
  omega

theorem Added.load_le (h : q.Added e q') : q'.load ≤ q.load + (e.load + 1) := by
  cases h with
  | published => exact (load_publish_le q e).trans (by omega)
  | scheduled runAt => exact load_schedule_le q e runAt

@[simp] theorem load_ack (q : QueueState) (id : ℕ) : (q.ack id).load = q.load := rfl

@[simp] theorem load_deadLetter (q : QueueState) (e : TaskEnvelope) (reason : String) :
    (q.deadLetter e reason).load = q.load := rfl

/-- A delivery takes one message out of the load. -/
theorem load_deliver (pending : List Pending) (h : q.stream[q.delivered]? = some e) :
    { q with delivered := q.delivered + 1, pending := pending }.load + e.load = q.load := by
  obtain ⟨hlt, hget⟩ := List.getElem?_eq_some_iff.mp h
  simp only [load, List.drop_eq_getElem_cons hlt, hget, List.map_cons, List.sum_cons]
  omega

/-- A promotion that moves something takes at least one from the load for each entry it
moves. -/
theorem load_promoteScheduled_add_le (q : QueueState) (now : ℚ) :
    (q.promoteScheduled now).load + (q.due now 100).length ≤ q.load := by
  -- the due members are among those that leave the sorted set
  have hleave : ((q.sched.filter fun m => m.2 ≤ now).take 100).Sublist
      (q.sched.filter fun m => m.1 ∈ q.due now 100) := by
    have hsub : ((q.sched.filter fun m => m.2 ≤ now).take 100).Sublist q.sched :=
      (List.take_sublist _ _).trans List.filter_sublist
    have hself : ((q.sched.filter fun m => m.2 ≤ now).take 100).filter
        (fun m => m.1 ∈ q.due now 100) = (q.sched.filter fun m => m.2 ≤ now).take 100 :=
      List.filter_eq_self.mpr fun m hm => decide_eq_true (List.mem_map_of_mem hm)
    rw [← hself]
    exact hsub.filter _
  have hle := (hleave.map fun m => m.1.load + 1).sum_le_sum fun _ _ => Nat.zero_le _
  have hdue : (((q.sched.filter fun m => m.2 ≤ now).take 100).map fun m => m.1.load + 1).sum =
      ((q.due now 100).map TaskEnvelope.load).sum + (q.due now 100).length := by
    simp only [due, List.map_map, List.length_map]
    induction (q.sched.filter fun m => m.2 ≤ now).take 100 with
    | nil => rfl
    | cons m rest ih =>
      simp only [List.map_cons, List.sum_cons, List.length_cons, Function.comp_apply, ih]
      omega
  -- what leaves the set and what stays make it up
  have hsplit : (q.sched.map fun m => m.1.load + 1).sum =
      ((q.sched.filter fun m => m.1 ∈ q.due now 100).map fun m => m.1.load + 1).sum +
        ((q.sched.filter fun m => m.1 ∉ q.due now 100).map fun m => m.1.load + 1).sum := by
    have hperm := List.filter_append_perm (fun m => decide (m.1 ∈ q.due now 100)) q.sched
    rw [← (hperm.map _).sum_eq, List.map_append, List.sum_append]
    simp only [decide_not]
  -- and the stream takes up the due members without the one that each of them cost on top
  have hstream : (((q.stream ++ q.due now 100).drop q.delivered).map TaskEnvelope.load).sum ≤
      ((q.stream.drop q.delivered).map TaskEnvelope.load).sum +
        ((q.due now 100).map TaskEnvelope.load).sum := by
    rw [List.drop_append, List.map_append, List.sum_append]
    refine Nat.add_le_add_left ?_ _
    exact ((List.drop_sublist _ _).map _).sum_le_sum fun _ _ => Nat.zero_le _
  rw [promoteScheduled_eq]
  simp only [load]
  omega

/-- What is scheduled is due at its own time. -/
theorem due_ne_nil {m : TaskEnvelope × ℚ} (hm : m ∈ q.sched) : q.due m.2 100 ≠ [] := by
  intro hdue
  have hmem : m ∈ q.sched.filter fun x => x.2 ≤ m.2 := List.mem_filter.mpr ⟨hm, by simp⟩
  have htake := List.map_eq_nil_iff.mp hdue
  rw [List.take_eq_nil_iff] at htake
  rcases htake with hzero | hnil
  · exact absurd hzero (by decide)
  · exact absurd (hnil ▸ hmem) List.not_mem_nil

end QueueState

/-! ### The load of a party -/

/-- How many calls of `_process_message` are ahead at most, those of the exception handlers
included. -/
def Pc.callsAhead : Pc → ℕ
  | .closePrior => 13
  | .execute .acquireLease => 12
  | .execute .recordAttempt => 11
  | .execute .startHandler => 10
  | .execute .handlerRunning => 9
  | .execute (.selectEffect _) => 8
  | .execute (.insertEffect _) => 7
  | .execute (.commitSuccess _ _) | .execute (.closeFailed _ _) => 6
  | .execute (.abandon _) | .execute (.rollback _) => 5
  | .execute (.releaseLease _ _) => 4
  | .returned _ _ => 3
  | .markDead => 2
  | .ack => 1
  | .ended => 0

/-- A retry may still be scheduled. -/
def Pc.mayRetry : Pc → Bool
  | .markDead | .ack | .ended => false
  | _ => true

namespace Job

variable {stores stores' : Stores} {locks : Locks} {job job' : Job}

/-- The calls ahead of a job, and the work of the retries that may follow. -/
def load (job : Job) : ℕ :=
  job.pc.callsAhead + if job.pc.mayRetry then 15 * job.envelope.retriesLeft else 0

/-- A call that returns leaves less to do, on the job's queue and in the job. -/
theorem Proceeds.load_lt (h : job.Proceeds stores locks stores' job') :
    (stores'.redis.queues job.queue).load + job'.load <
      (stores.redis.queues job.queue).load + job.load := by
  have hnext := job.envelope.retriesLeft_nextAttempt_le
  cases h with
  | closedPrior now hpc =>
    simp only [load, hpc, adopted, Pc.callsAhead, Pc.mayRetry, if_true]
    omega
  | scheduledRetry text runAt hpc hretry =>
    -- the retry uses up one of those that were left, and with it its share of the load
    have hleft := TaskEnvelope.retriesLeft_nextAttempt (lt_maxAttempts_of_isRetryable hretry)
    have hle := (stores.redis.queues job.queue).load_schedule_le job.envelope.nextAttempt runAt
    simp only [load, hpc, onQueue, Redis.modifyQueue_self, Pc.callsAhead, Pc.mayRetry, if_true,
      Bool.false_eq_true, if_false, TaskEnvelope.load] at hle ⊢
    omega
  | deadLettered text hpc | ackedSuccess text hpc =>
    simp only [load, hpc, onQueue, Redis.modifyQueue_self, Pc.callsAhead, Pc.mayRetry,
      QueueState.load_deadLetter, QueueState.load_ack, if_true, Bool.false_eq_true, if_false]
    omega
  | acked hpc | markedDead hpc =>
    simp [load, hpc, onQueue, Pc.callsAhead, Pc.mayRetry]
  | refused _ hpc | acquired _ _ hpc | recorded hpc | abandoned _ hpc | handlerStarted hpc
  | foundAbsent _ hpc | foundPresent _ _ hpc | foundNewer _ _ hpc | inserted _ hpc
  | committedEffect _ _ hpc | committedNothing _ _ hpc | closedFailed _ _ _ _ hpc
  | rolledBack _ hpc | released _ _ hpc =>
    simp [load, hpc, goto, returns, release, Pc.callsAhead, Pc.mayRetry]

theorem Proceeds.retriesLeft_le (h : job.Proceeds stores locks stores' job') :
    job'.envelope.retriesLeft ≤ job.envelope.retriesLeft := by
  cases h with
  | closedPrior => exact job.envelope.retriesLeft_nextAttempt_le
  | _ => exact Nat.le_refl _

/-- A call that raises leads out of the code, or to an exception handler that is nearer to the
end than the call was; before such a handler nothing is done to the queue. -/
theorem raised_callsAhead {message : String} {failed : Job} (h : job.raised message = some failed) :
    failed.pc.callsAhead < job.pc.callsAhead ∧
      failed.envelope.retriesLeft ≤ job.envelope.retriesLeft ∧
      (failed.pc = .ended ∨ job.pc = .closePrior ∨ ∃ pc, job.pc = .execute pc) := by
  have hnext := job.envelope.retriesLeft_nextAttempt_le
  cases hpc : job.pc with
  | closePrior =>
    simp only [raised, hpc] at h
    obtain rfl := Option.some.inj h
    exact ⟨by simp [adopted, Pc.callsAhead], hnext, Or.inr (Or.inl rfl)⟩
  | execute pc =>
    -- every `except` of `execute` goes on nearer to its end than where the exception was raised
    simp only [raised, hpc] at h
    cases pc <;> simp only [executeRaised, reduceCtorEq, Option.some.injEq] at h
    all_goals
      subst h
      exact ⟨by simp [goto, Pc.callsAhead], Nat.le_refl _, Or.inr (Or.inr ⟨_, rfl⟩)⟩
  | returned success text =>
    simp only [raised, hpc] at h
    obtain rfl := Option.some.inj h
    exact ⟨by simp [Pc.callsAhead], Nat.le_refl _, Or.inl rfl⟩
  | markDead | ack =>
    simp only [raised, hpc] at h
    obtain rfl := Option.some.inj h
    exact ⟨by simp [Pc.callsAhead], Nat.le_refl _, Or.inl rfl⟩
  | ended => simp [raised, hpc] at h

theorem load_of_mayRetry (h : job.pc = .closePrior ∨ ∃ pc, job.pc = .execute pc) :
    job.load = job.pc.callsAhead + 15 * job.envelope.retriesLeft := by
  obtain hpc | ⟨pc, hpc⟩ := h <;> simp [load, hpc, Pc.mayRetry]

theorem load_le (job : Job) : job.load ≤ job.pc.callsAhead + 15 * job.envelope.retriesLeft := by
  unfold load
  split_ifs <;> omega

@[simp] theorem load_of_ended (h : job.pc = .ended) : job.load = 0 := by
  simp [load, h, Pc.callsAhead, Pc.mayRetry]

/-- A call that raises without effect leaves less to do. -/
theorem load_lt_of_raised {message : String} {failed : Job} (h : job.raised message = some failed) :
    failed.load < job.load := by
  obtain ⟨hcalls, hleft, hended | hpc⟩ := raised_callsAhead h
  · rw [load_of_ended hended]
    exact Nat.lt_of_lt_of_le (Nat.zero_lt_of_lt hcalls) (Nat.le_add_right _ _)
  · rw [load_of_mayRetry hpc]
    exact failed.load_le.trans_lt (by omega)

/-- The queues are as they were after a call inside `execute`. -/
theorem Proceeds.queues_eq (h : job.Proceeds stores locks stores' job')
    (hpc : job.pc = .closePrior ∨ ∃ pc, job.pc = .execute pc) :
    stores'.redis.queues = stores.redis.queues := by
  obtain hsame | ⟨f, -, hcases⟩ := (Moves.proceeds h).queues_cases
  · exact hsame
  · exfalso
    obtain hpc | ⟨pc, hpc⟩ := hpc <;> simp [hpc] at hcases

/-- A call that raises after it took effect leaves less to do. -/
theorem Proceeds.load_lt_of_raised {message : String} {failed : Job}
    (h : job.Proceeds stores locks stores' job') (hfailed : job.raised message = some failed) :
    (stores'.redis.queues job.queue).load +
        { job' with pc := failed.pc, returned := failed.returned }.load <
      (stores.redis.queues job.queue).load + job.load := by
  -- a call that touches the queue raises out of the job, and the others leave the queues alone
  obtain ⟨hcalls, -, hended | hpc⟩ := raised_callsAhead hfailed
  · have hlt := h.load_lt
    have hzero : { job' with pc := failed.pc, returned := failed.returned }.load = 0 :=
      load_of_ended hended
    omega
  · have hleft := h.retriesLeft_le
    have hle := load_le { job' with pc := failed.pc, returned := failed.returned }
    simp only at hle
    rw [h.queues_eq hpc, load_of_mayRetry hpc]
    omega

/-- The end of a handler leaves less to do. -/
theorem load_lt_of_handlerEnds {outcome : HandlerOutcome}
    (h : job.handlerEnds outcome = some job') : job'.load < job.load := by
  -- wherever the outcome leads to comes after the handler
  have hgoes : ∀ {pc : ExecutePc}, job' = job.goto pc →
      (job.pc = .execute .handlerRunning ∨ job.pc = .execute .startHandler) →
      (Pc.execute pc).callsAhead < 9 → job'.load < job.load := by
    rintro pc rfl hpc hcalls
    have hload : job.load = job.pc.callsAhead + 15 * job.envelope.retriesLeft :=
      load_of_mayRetry (Or.inr (hpc.elim (fun h => ⟨_, h⟩) fun h => ⟨_, h⟩))
    have hstart : 9 ≤ job.pc.callsAhead := by
      rcases hpc with hpc | hpc <;> simp [hpc, Pc.callsAhead]
    have hle := (job.goto pc).load_le
    simp only [goto] at hle ⊢
    omega
  cases outcome <;> simp only [handlerEnds, Option.ite_none_right_eq_some, Option.some.injEq] at h
  · exact hgoes h.2.symm (Or.inl h.1) (by simp [Pc.callsAhead])
  · exact hgoes h.2.symm (Or.inl h.1) (by simp [Pc.callsAhead])
  · exact hgoes h.2.symm (Or.inl h.1) (by simp [Pc.callsAhead])
  · exact hgoes h.2.symm (h.1.imp_right And.left) (by simp [Pc.callsAhead])

end Job

/-- How many retries a limit on the attempts allows. -/
def retriesOf (maxAttempts : ℤ) : ℕ := (maxAttempts - 1).toNat

namespace Post

variable {stores : Stores} {waiting : List TaskRow} {post : Post} {out : Outcome}

/-- The calls ahead of a request, and the message it has not handed over. -/
def load (post : Post) : ℕ :=
  match post.pc with
  | .select _ => 19 + 15 * retriesOf post.req.maxAttempts
  | .insert => 18 + 15 * retriesOf post.req.maxAttempts
  | .commit => 17 + 15 * retriesOf post.req.maxAttempts
  | .dispatch => 16 + 15 * retriesOf post.req.maxAttempts
  | .publish envelope => envelope.load + 1
  | .commitFound _ => 1
  | .ended _ => 0

theorem load_envelope (req : CreateTaskRequest) (taskId : Uuid) (now : ℚ) :
    (req.envelope taskId now).load = 13 + 15 * retriesOf req.maxAttempts := rfl

/-- A call that returns leaves less to do, on the request's queue and in the request. -/
theorem Proceeds.load_lt (h : post.Proceeds stores waiting out) :
    (out.stores.redis.queues post.req.queue).load + out.post.load <
      (stores.redis.queues post.req.queue).load + post.load := by
  cases h with
  | found _ _ hpc | notFound _ hpc | inserted hpc _ _ | committed hpc | answered _ hpc
  | naive _ hpc _ _ =>
    simp only [load, hpc, goto]
    omega
  | prepared now hpc =>
    simp only [load, hpc, goto, load_envelope]
    omega
  | scheduled now at_ runAt hpc =>
    have hle := (stores.redis.queues post.req.queue).load_schedule_le
      (post.req.envelope post.taskId now) at_
    rw [load_envelope] at hle
    simp only [load, hpc, created, goto, Redis.modifyQueue_self]
    omega
  | published envelope hpc =>
    have hle := (stores.redis.queues post.req.queue).load_publish_le envelope
    simp only [load, hpc, created, goto, Redis.modifyQueue_self]
    omega

theorem load_pos (h : ¬ post.Ended) : 0 < post.load := by
  unfold load
  cases hpc : post.pc with
  | ended response => exact absurd ⟨response, hpc⟩ h
  | select | insert | commit | dispatch => exact Nat.add_pos_left (by decide) _
  | publish | commitFound => exact Nat.succ_pos _

theorem Moves.load_lt (h : post.Moves stores waiting out) :
    (out.stores.redis.queues post.req.queue).load + out.post.load <
      (stores.redis.queues post.req.queue).load + post.load := by
  cases h with
  | proceeds h => exact h.load_lt
  | abortedAfter h => exact (Nat.add_le_add_left (Nat.zero_le _) _).trans_lt h.load_lt
  | aborted hactive => exact Nat.add_lt_add_left (load_pos hactive) _

end Post

namespace Requeue

variable {stores stores' : Stores} {locks : Locks} {requeue requeue' : Requeue} {most : ℕ}

/-- The calls ahead of a requeue request, and a message with at most `most` retries for each id
that it has not dealt with. -/
def load (most : ℕ) (requeue : Requeue) : ℕ :=
  match requeue.pc with
  | .next taskIds => 1 + taskIds.length * (16 + 15 * most)
  | .publish envelope rest => 2 + envelope.load + rest.length * (16 + 15 * most)
  | .ended => 0

theorem load_requeueEnvelope (queue : String) (row : TaskRow) (now : ℚ) :
    (requeueEnvelope queue row now).load = 13 + 15 * retriesOf row.maxAttempts := rfl

/-- A call that returns leaves less to do, on the request's queue and in the request. -/
theorem Proceeds.load_lt (h : requeue.Proceeds stores locks stores' requeue')
    (hrows : ∀ row ∈ stores.db.tasks, retriesOf row.maxAttempts ≤ most) :
    (stores'.redis.queues requeue.queue).load + requeue'.load most <
      (stores.redis.queues requeue.queue).load + requeue.load most := by
  cases h with
  | committed hpc => simp [load, hpc]
  | skipped taskId rest hpc =>
    simp only [load, hpc, List.length_cons, Nat.succ_mul]
    omega
  | updated taskId rest row now hpc hrow =>
    have hmost := hrows row (List.mem_of_find?_eq_some hrow)
    simp only [load, hpc, load_requeueEnvelope, List.length_cons, Nat.succ_mul]
    omega
  | published envelope rest hpc =>
    have hle := (stores.redis.queues requeue.queue).load_publish_le envelope
    simp only [load, hpc, Redis.modifyQueue_self]
    omega

/-- After a call that raises, no more is left of the request than after one that returns. -/
theorem Proceeds.load_raised_le {failed : Requeue}
    (h : requeue.Proceeds stores locks stores' requeue') (hfailed : requeue.raised = some failed) :
    failed.load most ≤ requeue'.load most := by
  cases h with
  | committed hpc | skipped _ _ hpc | updated _ _ _ _ hpc =>
    simp only [raised, hpc] at hfailed
    obtain rfl := Option.some.inj hfailed
    exact Nat.zero_le _
  | published envelope rest hpc =>
    simp only [raised, hpc] at hfailed
    obtain rfl := Option.some.inj hfailed
    exact Nat.le_refl _

theorem load_pos (h : requeue.pc ≠ .ended) : 0 < requeue.load most := by
  unfold load
  cases hpc : requeue.pc with
  | ended => exact absurd hpc h
  | next | publish => exact Nat.add_pos_left (by simp) _

/-- A call that raises without effect leaves less to do. -/
theorem load_lt_of_raised {failed : Requeue} (h : requeue.raised = some failed) :
    failed.load most < requeue.load most := by
  cases hpc : requeue.pc with
  | next taskIds =>
    have hpos : 0 < requeue.load most := load_pos (by simp [hpc])
    simp only [raised, hpc] at h
    obtain rfl := Option.some.inj h
    exact hpos
  | publish envelope rest =>
    simp only [raised, hpc] at h
    obtain rfl := Option.some.inj h
    simp only [load, hpc]
    omega
  | ended => simp [raised, hpc] at h

end Requeue

/-! ### The load of the system -/

/-- Something new comes in: a request, an envelope of another producer, or a pending entry that
is adopted. -/
def Action.arrives : Action → Bool
  | .post _ _ | .produce _ _ _ | .requeue _ _ | .adopt _ _ _ _ => true
  | _ => false

theorem Job.Moves.queues_of_ne {stores stores' : Stores} {locks : Locks} {job job' : Job}
    (h : job.Moves stores locks stores' job') {other : String} (hne : other ≠ job.queue) :
    stores'.redis.queues other = stores.redis.queues other := by
  obtain hsame | ⟨f, hf, -⟩ := h.queues_cases
  · rw [hsame]
  · rw [hf, Redis.modifyQueue_of_ne _ _ hne]

namespace Sys

variable {s s' : Sys} {a : Action} {qs : Finset String} {most : ℕ}

/-- Nothing new comes in. -/
def Undisturbed (_ : Sys) (a : Action) : Prop := a.arrives = false

instance (s : Sys) (a : Action) : Decidable (Undisturbed s a) :=
  inferInstanceAs (Decidable (_ = _))

/-- A party makes a step, or the scheduler finds something to promote. The others are renewals
and expiries of leases, cancellations, and ticks with nothing to do. -/
def Busy (s : Sys) : Action → Prop
  | .postStep _ _ | .requeueStep _ _ | .deliver _ _ _ | .jobStep _ _ | .handler _ _ => True
  | .promote queue now => (s.redis.queues queue).due now 100 ≠ []
  | _ => False

instance (s : Sys) (a : Action) : Decidable (s.Busy a) :=
  match a with
  | .postStep _ _ | .requeueStep _ _ | .deliver _ _ _ | .jobStep _ _ | .handler _ _ =>
    inferInstanceAs (Decidable True)
  | .promote queue now => inferInstanceAs (Decidable ((s.redis.queues queue).due now 100 ≠ []))
  | .post _ _ | .produce _ _ _ | .requeue _ _ | .cancel _ | .adopt _ _ _ _ | .heartbeat _
  | .expire _ => inferInstanceAs (Decidable False)

/-- The load of the parties. -/
def partiesLoad (most : ℕ) (s : Sys) : ℕ :=
  (s.jobs.map Job.load).sum + (s.posts.map Post.load).sum +
    (s.requeues.map (Requeue.load most)).sum

/-- The load of the parties and of the queues `qs`. -/
def load (qs : Finset String) (most : ℕ) (s : Sys) : ℕ :=
  ∑ queue ∈ qs, (s.redis.queues queue).load + s.partiesLoad most

/-- All the load is in the queues `qs`, where the parties work, and no row and no request allows
more than `most` retries. -/
structure Within (s : Sys) (qs : Finset String) (most : ℕ) : Prop where
  queues : ∀ queue ∉ qs, (s.redis.queues queue).load = 0
  jobs : ∀ job ∈ s.jobs, job.queue ∈ qs
  posts : ∀ post ∈ s.posts, post.req.queue ∈ qs ∧ retriesOf post.req.maxAttempts ≤ most
  requeues : ∀ requeue ∈ s.requeues, requeue.queue ∈ qs
  rows : ∀ row ∈ s.db.tasks, retriesOf row.maxAttempts ≤ most

/-- A change of one of the queues changes the total by the difference. -/
theorem sum_queues_add {r r' : Redis} {queue : String} (hqueue : queue ∈ qs)
    (hothers : ∀ other ≠ queue, r'.queues other = r.queues other) :
    ∑ q ∈ qs, (r'.queues q).load + (r.queues queue).load =
      ∑ q ∈ qs, (r.queues q).load + (r'.queues queue).load := by
  have hrest : ∑ q ∈ qs.erase queue, (r'.queues q).load =
      ∑ q ∈ qs.erase queue, (r.queues q).load :=
    Finset.sum_congr rfl fun q hq => by rw [hothers q (Finset.ne_of_mem_erase hq)]
  have hnew := Finset.add_sum_erase qs (fun q => (r'.queues q).load) hqueue
  have hold := Finset.add_sum_erase qs (fun q => (r.queues q).load) hqueue
  omega

/-- A step on one queue after which less is left in the queue and in the parties. -/
structure Lowers (most : ℕ) (s s' : Sys) (queue : String) : Prop where
  others : ∀ other ≠ queue, s'.redis.queues other = s.redis.queues other
  lt : (s'.redis.queues queue).load + s'.partiesLoad most <
    (s.redis.queues queue).load + s.partiesLoad most

theorem Lowers.load_lt {queue : String} (h : Lowers most s s' queue) (hqueue : queue ∈ qs) :
    s'.load qs most < s.load qs most := by
  have hsum := sum_queues_add hqueue h.others
  have hlt := h.lt
  simp only [load]
  omega

/-- No step of an undisturbed run brings in a queue or a higher limit. -/
theorem Within.rows_step (h : s.Within qs most) (hstep : s.step a = some s') :
    ∀ row ∈ s'.db.tasks, retriesOf row.maxAttempts ≤ most := by
  intro row hrow
  obtain hsame | ⟨i, reply, post, -, -, hpost, -, hrows⟩ := (moves_of_step hstep).rows_cases
  · have hcore : row.core ∈ s.db.tasks.map TaskRow.core := hsame ▸ List.mem_map_of_mem hrow
    obtain ⟨old, hold, heq⟩ := List.mem_map.mp hcore
    have hmax : old.maxAttempts = row.maxAttempts := by
      simpa [TaskRow.core] using congrArg TaskRow.maxAttempts heq
    exact hmax ▸ h.rows old hold
  · rw [hrows, List.mem_append, List.mem_singleton] at hrow
    rcases hrow with hrow | rfl
    · exact h.rows row hrow
    · exact (h.posts post (List.mem_of_getElem? hpost)).2

theorem Within.queues_step (h : s.Within qs most) {queue : String} (hqueue : queue ∈ qs)
    (hothers : ∀ other ≠ queue, s'.redis.queues other = s.redis.queues other) :
    ∀ q ∉ qs, (s'.redis.queues q).load = 0 := by
  intro q hq
  rw [hothers q fun heq => hq (heq ▸ hqueue)]
  exact h.queues q hq

section Parties

variable (most)

theorem partiesLoad_setJob {i : ℕ} {job : Job} (hjob : s.jobs[i]? = some job) (stores : Stores)
    (job' : Job) :
    (s.setJob i stores job').partiesLoad most + job.load = s.partiesLoad most + job'.load := by
  have hsum := Indexed.sum_map_set (x := job') Job.load hjob
  simp only [partiesLoad, setJob_jobs, setJob_posts, setJob_requeues]
  omega

theorem partiesLoad_setPost {i : ℕ} {post : Post} (hpost : s.posts[i]? = some post)
    (out : Post.Outcome) :
    (s.setPost i post out).partiesLoad most + post.load =
      s.partiesLoad most + out.post.load := by
  have hsum := Indexed.sum_map_set (x := out.post) Post.load hpost
  simp only [partiesLoad, setPost_jobs, setPost_posts, setPost_requeues]
  omega

theorem partiesLoad_setRequeue {i : ℕ} {requeue : Requeue}
    (hrequeue : s.requeues[i]? = some requeue) (stores : Stores) (requeue' : Requeue) :
    (s.setRequeue i stores requeue').partiesLoad most + requeue.load most =
      s.partiesLoad most + requeue'.load most := by
  have hsum := Indexed.sum_map_set (x := requeue') (Requeue.load most) hrequeue
  simp only [partiesLoad, setRequeue_jobs, setRequeue_posts, setRequeue_requeues]
  omega

end Parties

/-- A job's step leaves less to do, however its call is answered. -/
theorem lowers_of_stepJob {i : ℕ} {job : Job} {reply : Reply} (hjob : s.jobs[i]? = some job)
    (h : s.stepJob i job reply = some s') : Lowers most s s' job.queue := by
  have hset : ∀ {stores' : Stores} {job' : Job},
      (∀ other ≠ job.queue, stores'.redis.queues other = s.redis.queues other) →
      (stores'.redis.queues job.queue).load + job'.load <
        (s.redis.queues job.queue).load + job.load →
      Lowers most s (s.setJob i stores' job') job.queue := by
    intro stores' job' hothers hlt
    have hparties := partiesLoad_setJob most hjob stores' job'
    refine ⟨hothers, ?_⟩
    rw [setJob_redis]
    omega
  have hsame : ∀ other ≠ job.queue, s.stores.redis.queues other = s.redis.queues other :=
    fun _ _ => rfl
  cases reply with
  | ok now draw =>
    obtain ⟨out, hout, rfl⟩ := Option.map_eq_some_iff.mp h
    have hproceeds := Job.proceeds_of_proceed hout
    exact hset (fun _ hne => (Job.Moves.proceeds hproceeds).queues_of_ne hne) hproceeds.load_lt
  | raise applied now draw message =>
    cases applied with
    | false =>
      obtain ⟨failed, hfailed, rfl⟩ := Option.map_eq_some_iff.mp h
      exact hset hsame (Nat.add_lt_add_left (Job.load_lt_of_raised hfailed) _)
    | true =>
      obtain ⟨out, hout, hrest⟩ := Option.bind_eq_some_iff.mp h
      obtain ⟨failed, hfailed, rfl⟩ := Option.map_eq_some_iff.mp hrest
      have hproceeds := Job.proceeds_of_proceed hout
      exact hset (fun _ hne => (Job.Moves.proceeds hproceeds).queues_of_ne hne)
        (hproceeds.load_lt_of_raised hfailed)
  | crash =>
    simp only [stepJob, Option.ite_none_right_eq_some, Option.some.injEq] at h
    obtain ⟨hactive, rfl⟩ := h
    -- who dies leaves undone what was ahead, and that was something
    have hpos : 0 < job.load := by
      unfold Job.load
      cases hpc : job.pc with
      | ended => exact absurd hpc hactive
      | execute pc => cases pc <;> exact Nat.add_pos_left (by simp [Pc.callsAhead]) _
      | closePrior | returned | markDead | ack =>
        exact Nat.add_pos_left (by simp [Pc.callsAhead]) _
    exact hset hsame (by simpa using hpos)

/-- The end of a handler leaves less to do. -/
theorem lowers_of_handler {i : ℕ} {job : Job} {outcome : HandlerOutcome}
    (hjob : s.jobs[i]? = some job) (h : s.step (.handler i outcome) = some s') :
    Lowers most s s' job.queue := by
  obtain ⟨job', hends, rfl⟩ := handlerEnds_of_step hjob h
  have hlt := Job.load_lt_of_handlerEnds hends
  have hparties := partiesLoad_setJob most hjob s.stores job'
  refine ⟨fun _ _ => rfl, ?_⟩
  rw [setJob_redis, stores_redis]
  omega

/-- A step of a request leaves less to do, however its call is answered. -/
theorem lowers_of_stepPost {i : ℕ} {post : Post} {reply : Reply} (hpost : s.posts[i]? = some post)
    (h : s.stepPost i post reply = some s') : Lowers most s s' post.req.queue := by
  obtain ⟨out, hout, rfl⟩ := Option.map_eq_some_iff.mp h
  have hmove := Post.moves_of_answer hout
  have hlt := hmove.load_lt
  have hparties := partiesLoad_setPost most hpost out
  refine ⟨fun other hne => ?_, ?_⟩
  · rw [setPost_redis]
    obtain ⟨hredis, -⟩ | ⟨e, -, -, hredis | ⟨at_, hredis⟩⟩ := hmove.sent_cases
    · rw [hredis, stores_redis]
    · rw [hredis, Redis.modifyQueue_of_ne _ _ hne, stores_redis]
    · rw [hredis, Redis.modifyQueue_of_ne _ _ hne, stores_redis]
  · rw [stores_redis] at hlt
    rw [setPost_redis]
    omega

/-- A step of a requeue request leaves less to do, however its call is answered. -/
theorem lowers_of_stepRequeue {i : ℕ} {requeue : Requeue} {reply : Reply}
    (hrows : ∀ row ∈ s.db.tasks, retriesOf row.maxAttempts ≤ most)
    (hrequeue : s.requeues[i]? = some requeue) (h : s.stepRequeue i requeue reply = some s') :
    Lowers most s s' requeue.queue := by
  have hset : ∀ {stores' : Stores} {requeue' : Requeue},
      (stores'.redis = s.redis ∨ ∃ e : TaskEnvelope,
        stores'.redis = s.redis.modifyQueue requeue.queue (·.publish e)) →
      (stores'.redis.queues requeue.queue).load + requeue'.load most <
        (s.redis.queues requeue.queue).load + requeue.load most →
      Lowers most s (s.setRequeue i stores' requeue') requeue.queue := by
    intro stores' requeue' hredis hlt
    have hparties := partiesLoad_setRequeue most hrequeue stores' requeue'
    refine ⟨fun other hne => ?_, ?_⟩
    · rw [setRequeue_redis]
      rcases hredis with hredis | ⟨e, hredis⟩
      · rw [hredis]
      · rw [hredis, Redis.modifyQueue_of_ne _ _ hne]
    · rw [setRequeue_redis]
      omega
  have hpublishes : ∀ {stores' : Stores} {requeue' : Requeue},
      requeue.Proceeds s.stores s.locks stores' requeue' →
      stores'.redis = s.redis ∨ ∃ e : TaskEnvelope,
        stores'.redis = s.redis.modifyQueue requeue.queue (·.publish e) := by
    intro stores' requeue' hproceeds
    obtain hsame | ⟨e, -, -, hpublish⟩ := (Requeue.Moves.proceeds hproceeds).redis_cases
    · exact Or.inl hsame
    · exact Or.inr ⟨e, hpublish⟩
  cases reply with
  | ok now draw =>
    obtain ⟨out, hout, rfl⟩ := Option.map_eq_some_iff.mp h
    have hproceeds := Requeue.proceeds_of_proceed hout
    exact hset (hpublishes hproceeds) (hproceeds.load_lt hrows)
  | raise applied now draw message =>
    cases applied with
    | false =>
      obtain ⟨failed, hfailed, rfl⟩ := Option.map_eq_some_iff.mp h
      exact hset (Or.inl rfl) (Nat.add_lt_add_left (Requeue.load_lt_of_raised hfailed) _)
    | true =>
      obtain ⟨out, hout, hrest⟩ := Option.bind_eq_some_iff.mp h
      obtain ⟨failed, hfailed, rfl⟩ := Option.map_eq_some_iff.mp hrest
      have hproceeds := Requeue.proceeds_of_proceed hout
      exact hset (hpublishes hproceeds)
        ((Nat.add_le_add_left (hproceeds.load_raised_le hfailed) _).trans_lt
          (hproceeds.load_lt hrows))
  | crash =>
    simp only [stepRequeue, Option.ite_none_left_eq_some, Option.some.injEq] at h
    obtain ⟨hactive, rfl⟩ := h
    exact hset (Or.inl rfl) (Nat.add_lt_add_left (Requeue.load_pos hactive) _)

/-- A party that moves on one of the queues keeps the load within them. -/
theorem Lowers.within {queue : String} (h : Lowers most s s' queue) (hqueue : queue ∈ qs)
    (hwithin : s.Within qs most) (hstep : s.step a = some s')
    (hjobs : ∀ job ∈ s'.jobs, job.queue ∈ qs)
    (hposts : ∀ post ∈ s'.posts, post.req.queue ∈ qs ∧ retriesOf post.req.maxAttempts ≤ most)
    (hrequeues : ∀ requeue ∈ s'.requeues, requeue.queue ∈ qs) :
    s'.Within qs most ∧ s'.load qs most < s.load qs most :=
  ⟨⟨hwithin.queues_step hqueue h.others, hjobs, hposts, hrequeues, hwithin.rows_step hstep⟩,
    h.load_lt hqueue⟩

/-- An entry that can be delivered lies in one of the queues. -/
theorem Within.mem_of_entry (h : s.Within qs most) {queue : String} {e : TaskEnvelope}
    (hentry : (s.redis.queues queue).stream[(s.redis.queues queue).delivered]? = some e) :
    queue ∈ qs := by
  by_contra hout
  have hload := QueueState.load_deliver [] hentry
  rw [h.queues queue hout] at hload
  simp [TaskEnvelope.load] at hload

/-- A job that moves keeps its queue. -/
theorem jobs_of_moves {i : ℕ} {job : Job} (hjob : s.jobs[i]? = some job) (h : s.Moves a s')
    (ha : (∃ reply, a = .jobStep i reply) ∨ ∃ outcome, a = .handler i outcome) :
    (∃ job', s'.jobs = s.jobs.set i job' ∧ job'.queue = job.queue) ∧ s'.posts = s.posts ∧
      s'.requeues = s.requeues := by
  cases h with
  | @job _ i₁ job₁ job' stores' hi hjob₁ hmove =>
    obtain rfl : i = i₁ := by
      obtain ⟨reply, rfl⟩ | ⟨outcome, rfl⟩ := ha <;> simp at hi <;> exact hi.1
    obtain rfl := Option.mem_unique hjob hjob₁
    exact ⟨⟨job', rfl, hmove.frame.2.1⟩, rfl, rfl⟩
  | leases hi => obtain ⟨_, rfl⟩ | ⟨_, rfl⟩ := ha <;> simp at hi
  | _ => simp at ha

/-- A job's step keeps the load within the queues and lowers it. -/
theorem Within.of_job {i : ℕ} {job : Job} (h : s.Within qs most) (hjob : s.jobs[i]? = some job)
    (hstep : s.step a = some s') (hlowers : Lowers most s s' job.queue)
    (ha : (∃ reply, a = .jobStep i reply) ∨ ∃ outcome, a = .handler i outcome) :
    s'.Within qs most ∧ s'.load qs most < s.load qs most := by
  have hmem := h.jobs job (List.mem_of_getElem? hjob)
  obtain ⟨⟨job', hjobs, hqueue⟩, hposts, hrequeues⟩ := jobs_of_moves hjob (moves_of_step hstep) ha
  refine hlowers.within hmem h hstep ?_ (hposts ▸ h.posts) (hrequeues ▸ h.requeues)
  rw [hjobs]
  exact Indexed.forall_mem_set h.jobs (hqueue ▸ hmem)

/-- A step that leaves the queues and the parties alone leaves the load alone. -/
theorem Within.of_same (h : s.Within qs most) (hstep : s.step a = some s') (hidle : ¬ s.Busy a)
    (hqueues : s'.redis.queues = s.redis.queues) (hjobs : s'.jobs = s.jobs)
    (hposts : s'.posts = s.posts) (hrequeues : s'.requeues = s.requeues) :
    s'.Within qs most ∧ (if s.Busy a then 1 else 0) + s'.load qs most ≤ s.load qs most := by
  refine ⟨⟨hqueues ▸ h.queues, hjobs ▸ h.jobs, hposts ▸ h.posts, hrequeues ▸ h.requeues,
    h.rows_step hstep⟩, ?_⟩
  rw [if_neg hidle, Nat.zero_add]
  simp only [load, partiesLoad, hqueues, hjobs, hposts, hrequeues, le_refl]

/-- **Step lemma.** In an undisturbed run the step of a party lowers the load, and no other
step raises it. -/
theorem Within.step (h : s.Within qs most) (ha : Undisturbed s a) (hstep : s.step a = some s') :
    s'.Within qs most ∧ (if s.Busy a then 1 else 0) + s'.load qs most ≤ s.load qs most := by
  have hbusy : ∀ {b : Prop} [Decidable b], s'.Within qs most ∧ s'.load qs most < s.load qs most →
      s'.Within qs most ∧ (if b then 1 else 0) + s'.load qs most ≤ s.load qs most := by
    intro b _ hlt
    refine ⟨hlt.1, ?_⟩
    split_ifs <;> omega
  cases a with
  | post | produce | requeue | adopt => simp [Undisturbed, Action.arrives] at ha
  | postStep i reply =>
    obtain ⟨post, hpost, hanswer⟩ := Option.bind_eq_some_iff.mp hstep
    have hmem := h.posts post (List.mem_of_getElem? hpost)
    refine hbusy ((lowers_of_stepPost hpost hanswer).within hmem.1 h hstep ?_ ?_ ?_)
    · obtain ⟨out, -, rfl⟩ := Option.map_eq_some_iff.mp hanswer
      exact h.jobs
    · obtain ⟨out, hout, rfl⟩ := Option.map_eq_some_iff.mp hanswer
      refine Indexed.forall_mem_set h.posts ?_
      rw [(Post.moves_of_answer hout).frame.1]
      exact hmem
    · obtain ⟨out, -, rfl⟩ := Option.map_eq_some_iff.mp hanswer
      exact h.requeues
  | requeueStep i reply =>
    obtain ⟨requeue, hrequeue, hanswer⟩ := Option.bind_eq_some_iff.mp hstep
    have hmem := h.requeues requeue (List.mem_of_getElem? hrequeue)
    have hlowers := lowers_of_stepRequeue h.rows hrequeue hanswer
    cases moves_of_step hstep with
    | @requeue _ _ requeue₁ requeue' stores' _ hrequeue₁ hmove =>
      obtain rfl := Option.mem_unique hrequeue hrequeue₁
      refine hbusy (hlowers.within hmem h hstep h.jobs h.posts
        (Indexed.forall_mem_set h.requeues ?_))
      cases hmove with
      | proceeds hproceeds => cases hproceeds <;> exact hmem
      | failed => exact hmem
    | leases ha => simp at ha
    | job ha => simp at ha
  | deliver workerId leaseMs queue =>
    cases moves_of_step hstep with
    | @delivered _ _ _ envelope hentry =>
      have hqueue := h.mem_of_entry hentry
      have hload := QueueState.load_deliver ((s.redis.queues queue).pending ++
        [⟨(s.redis.queues queue).delivered, workerId⟩]) hentry
      refine hbusy (Lowers.within ⟨fun other hne => ?_, ?_⟩ hqueue h hstep
        (Indexed.forall_mem_append_singleton h.jobs hqueue) h.posts h.requeues)
      · rw [spawn_redis, Redis.modifyQueue_of_ne _ _ hne]
      · -- the job has all the calls of the message ahead of it, but not its delivery
        simp only [spawn_redis, Redis.modifyQueue_self, partiesLoad, spawn_jobs, spawn_posts,
          spawn_requeues, List.map_append, List.map_singleton, List.sum_append, List.sum_singleton,
          Job.load, deliveredJob, Pc.callsAhead, Pc.mayRetry, if_true, TaskEnvelope.load] at hload ⊢
        omega
    | leases ha => simp at ha
    | job ha => simp at ha
  | jobStep i reply =>
    obtain ⟨job, hjob, hanswer⟩ := Option.bind_eq_some_iff.mp hstep
    exact hbusy (h.of_job hjob hstep (lowers_of_stepJob hjob hanswer) (Or.inl ⟨reply, rfl⟩))
  | handler i outcome =>
    obtain ⟨job, hjob, -⟩ := Option.bind_eq_some_iff.mp hstep
    exact hbusy (h.of_job hjob hstep (lowers_of_handler hjob hstep) (Or.inr ⟨outcome, rfl⟩))
  | promote queue now =>
    obtain rfl := Option.some.inj hstep
    have hle := (s.redis.queues queue).load_promoteScheduled_add_le now
    have hothers : ∀ other ≠ queue,
        (s.redis.modifyQueue queue (·.promoteScheduled now)).queues other =
          s.redis.queues other := fun _ hne => Redis.modifyQueue_of_ne _ _ hne
    have hcount : (if s.Busy (.promote queue now) then 1 else 0) ≤
        ((s.redis.queues queue).due now 100).length := by
      split_ifs with hdue
      · exact List.length_pos_iff.mpr hdue
      · exact Nat.zero_le _
    by_cases hqueue : queue ∈ qs
    · have hsum := sum_queues_add hqueue hothers
      simp only [Redis.modifyQueue_self] at hsum
      refine ⟨⟨h.queues_step hqueue hothers, h.jobs, h.posts, h.requeues, h.rows⟩, ?_⟩
      simp only [load, partiesLoad]
      omega
    · -- a queue without load has nothing to promote
      have hzero := h.queues queue hqueue
      have hsum : ∑ q ∈ qs, ((s.redis.modifyQueue queue (·.promoteScheduled now)).queues q).load =
          ∑ q ∈ qs, (s.redis.queues q).load :=
        Finset.sum_congr rfl fun q hq => by rw [hothers q fun heq => hqueue (heq ▸ hq)]
      refine ⟨⟨fun q hq => ?_, h.jobs, h.posts, h.requeues, h.rows⟩, ?_⟩
      · by_cases hself : q = queue
        · subst hself
          rw [Redis.modifyQueue_self]
          omega
        · rw [hothers q hself]
          exact h.queues q hq
      · simp only [load, partiesLoad, hsum]
        omega
  | cancel taskId =>
    have hsame := hstep
    simp only [Sys.step, Option.ite_none_left_eq_some, Option.some.injEq] at hsame
    obtain ⟨-, rfl⟩ := hsame
    exact h.of_same hstep id rfl rfl rfl rfl
  | heartbeat i =>
    obtain ⟨job, -, hrest⟩ := Option.bind_eq_some_iff.mp hstep
    obtain ⟨stores, hstores, rfl⟩ := Option.map_eq_some_iff.mp hrest
    simp only [Job.heartbeat, Option.ite_none_right_eq_some, Option.some.injEq] at hstores
    obtain ⟨-, rfl⟩ := hstores
    exact h.of_same hstep id rfl rfl rfl rfl
  | expire taskText =>
    obtain rfl := Option.some.inj hstep
    exact h.of_same hstep id rfl rfl rfl rfl

theorem Within.mono {qs' : Finset String} {most' : ℕ} (h : s.Within qs most) (hqs : qs ⊆ qs')
    (hmost : most ≤ most') : s.Within qs' most' :=
  ⟨fun queue hout => h.queues queue fun hin => hout (hqs hin),
    fun job hjob => hqs (h.jobs job hjob),
    fun post hpost => ⟨hqs (h.posts post hpost).1, (h.posts post hpost).2.trans hmost⟩,
    fun requeue hrequeue => hqs (h.requeues requeue hrequeue),
    fun row hrow => (h.rows row hrow).trans hmost⟩

/-- What comes in adds a queue and a limit at most. -/
theorem Within.arrives (h : s.Within qs most) (ha : a.arrives = true) (hstep : s.step a = some s') :
    ∃ qs' most', s'.Within qs' most' := by
  cases moves_of_step hstep with
  | @posted req taskId hfresh =>
    have hmono := h.mono (Finset.subset_insert req.queue qs)
      (Nat.le_max_left most (retriesOf req.maxAttempts))
    refine ⟨_, _, hmono.queues, hmono.jobs, ?_, hmono.requeues, hmono.rows⟩
    exact Indexed.forall_mem_append_singleton hmono.posts
      ⟨Finset.mem_insert_self _ _, Nat.le_max_right _ _⟩
  | @produced queue envelope runAt f hfresh hf =>
    have hmono := h.mono (Finset.subset_insert queue qs) le_rfl
    refine ⟨_, _, ?_, hmono.jobs, hmono.posts, hmono.requeues, hmono.rows⟩
    exact hmono.queues_step (Finset.mem_insert_self _ _) fun _ hne =>
      Redis.modifyQueue_of_ne _ _ hne
  | @requeued queue taskIds =>
    have hmono := h.mono (Finset.subset_insert queue qs) le_rfl
    refine ⟨_, _, hmono.queues, hmono.jobs, hmono.posts, ?_, hmono.rows⟩
    exact Indexed.forall_mem_append_singleton hmono.requeues (Finset.mem_insert_self _ _)
  | @adopted workerId leaseMs queue msgId envelope =>
    have hmono := h.mono (Finset.subset_insert queue qs) le_rfl
    refine ⟨_, _, ?_, ?_, hmono.posts, hmono.requeues, hmono.rows⟩
    · refine hmono.queues_step (Finset.mem_insert_self _ _) fun other hne => ?_
      rw [spawn_redis, Redis.modifyQueue_of_ne _ _ hne]
    · exact Indexed.forall_mem_append_singleton hmono.jobs (Finset.mem_insert_self _ _)
  | job hi => obtain ⟨_, rfl, -⟩ | ⟨⟨_, rfl⟩, -⟩ := hi <;> simp [Action.arrives] at ha
  | leases hi => obtain ⟨_, rfl⟩ | ⟨_, rfl⟩ := hi <;> simp [Action.arrives] at ha
  | delivered | post | requeue | cancelled | promoted => simp [Action.arrives] at ha

theorem within_init : init.Within ∅ 0 := by
  constructor <;> simp [init, Redis.empty, QueueState.load, Db.empty]

/-- In every reachable state the load is finite. -/
theorem Reachable.exists_within (h : s.Reachable) : ∃ qs most, s.Within qs most := by
  refine Transition.Reaches.invariant (I := fun s : Sys => ∃ qs most, s.Within qs most) ?_ h
    ⟨∅, 0, within_init⟩
  rintro s a t ⟨qs, most, hwithin⟩ hstep
  cases ha : a.arrives with
  | true => exact hwithin.arrives ha hstep
  | false => exact ⟨qs, most, (hwithin.step ha hstep).1⟩

/-! ### At rest -/

/-- Nobody is at work, everything has been delivered and nothing is scheduled. -/
structure AtRest (s : Sys) : Prop where
  jobs : ∀ job ∈ s.jobs, job.pc = .ended
  posts : ∀ post ∈ s.posts, post.Ended
  requeues : ∀ requeue ∈ s.requeues, requeue.pc = .ended
  delivered : ∀ queue, (s.redis.queues queue).stream.length ≤ (s.redis.queues queue).delivered
  sched : ∀ queue, (s.redis.queues queue).sched = []

theorem AtRest.load_eq_zero (h : s.AtRest) : s.load qs most = 0 := by
  have hqueues : ∑ queue ∈ qs, (s.redis.queues queue).load = 0 := by
    refine Finset.sum_eq_zero fun queue _ => ?_
    rw [QueueState.load, List.drop_eq_nil_of_le (h.delivered queue), h.sched queue]
    rfl
  have hjobs : (s.jobs.map Job.load).sum = 0 := by
    refine List.sum_eq_zero fun n hn => ?_
    obtain ⟨job, hjob, rfl⟩ := List.mem_map.mp hn
    exact Job.load_of_ended (h.jobs job hjob)
  have hposts : (s.posts.map Post.load).sum = 0 := by
    refine List.sum_eq_zero fun n hn => ?_
    obtain ⟨post, hpost, rfl⟩ := List.mem_map.mp hn
    obtain ⟨response, hended⟩ := h.posts post hpost
    simp [Post.load, hended]
  have hrequeues : (s.requeues.map (Requeue.load most)).sum = 0 := by
    refine List.sum_eq_zero fun n hn => ?_
    obtain ⟨requeue, hrequeue, rfl⟩ := List.mem_map.mp hn
    simp [Requeue.load, h.requeues requeue hrequeue]
  simp only [load, partiesLoad, hqueues, hjobs, hposts, hrequeues]

/-- Nobody moves at rest. -/
theorem AtRest.not_busy (h : s.AtRest) (hwithin : s.Within qs most) (ha : Undisturbed s a)
    (hstep : s.step a = some s') : ¬ s.Busy a := by
  intro hbusy
  have hle := (hwithin.step ha hstep).2
  rw [if_pos hbusy, h.load_eq_zero] at hle
  omega

/-- As long as the system is not at rest, a party can make a step: if nothing else, it may die. -/
theorem exists_busy_of_not_atRest (h : ¬ s.AtRest) :
    ∃ a s', Undisturbed s a ∧ s.step a = some s' ∧ s.Busy a := by
  by_contra hnone
  have hquiet : ∀ a s', Undisturbed s a → s.step a = some s' → ¬ s.Busy a :=
    fun a s' ha hstep hbusy => hnone ⟨a, s', ha, hstep, hbusy⟩
  -- whoever is not at rest has a step that nobody can refuse it
  refine h ⟨fun job hjob => ?_, fun post hpost => ?_, fun requeue hrequeue => ?_,
    fun queue => ?_, fun queue => ?_⟩
  · obtain ⟨i, hi⟩ := List.mem_iff_getElem?.mp hjob
    by_contra hactive
    exact hquiet (.jobStep i .crash) _ rfl
      (by simp [Sys.step, hi, stepJob, Job.Active, hactive]; rfl) trivial
  · obtain ⟨i, hi⟩ := List.mem_iff_getElem?.mp hpost
    by_contra hactive
    have haborted : post.aborted = some (post.goto (.ended none)) := by
      unfold Post.aborted
      split
      · next response hpc => exact absurd ⟨response, hpc⟩ hactive
      · rfl
    exact hquiet (.postStep i .crash) _ rfl
      (by simp [Sys.step, hi, stepPost, Post.answer, haborted]; rfl) trivial
  · obtain ⟨i, hi⟩ := List.mem_iff_getElem?.mp hrequeue
    by_contra hactive
    exact hquiet (.requeueStep i .crash) _ rfl
      (by simp [Sys.step, hi, stepRequeue, hactive]; rfl) trivial
  · by_contra hlt
    rw [Nat.not_le] at hlt
    exact hquiet (.deliver "" 1 queue) _ rfl
      (by simp [Sys.step, QueueState.lease, List.getElem?_eq_getElem hlt]; rfl) trivial
  · by_contra hsome
    obtain ⟨m, hm⟩ := List.exists_mem_of_ne_nil _ hsome
    exact hquiet (.promote queue m.2) _ rfl rfl (QueueState.due_ne_nil hm)

/-- **The system settles.** From any state it can reach, as long as nothing new comes in, the
parties make a bounded number of steps, however the stores answer and whoever dies; when
none of them can make another one, the system is at rest; and it can get there. -/
theorem settles (h : s.Reachable) :
    (∃ bound, ∀ labels t, Transition.run (Transition.guard step Undisturbed) s labels = some t →
      Transition.countWhen step Busy s labels ≤ bound) ∧
    (∀ t, Transition.ReachesWhen step Undisturbed s t →
      (t.AtRest ↔ ∀ a u, Undisturbed t a → t.step a = some u → ¬ t.Busy a)) ∧
    ∃ t, Transition.ReachesWhen step Undisturbed s t ∧ t.AtRest := by
  obtain ⟨qs, most, hwithin⟩ := h.exists_within
  refine ⟨⟨s.load qs most, fun labels t hrun => ?_⟩, fun t hreach => ⟨fun hrest a u => ?_, ?_⟩, ?_⟩
  · have hcount := Transition.countWhen_add_le (I := fun s : Sys => s.Within qs most)
      (load qs most) (fun s a t hI ha hstep => hI.step ha hstep) hwithin hrun
    exact (Nat.le_add_right _ _).trans hcount
  · have hthere : t.Within qs most :=
      hreach.invariant (fun s a t hI ha hstep => (Within.step hI ha hstep).1) hwithin
    exact hrest.not_busy hthere
  · intro hquiet
    by_contra hrest
    obtain ⟨a, u, ha, hstep, hbusy⟩ := exists_busy_of_not_atRest hrest
    exact hquiet a u ha hstep hbusy
  · have hprogress : ∀ s : Sys, s.Within qs most → s.AtRest ∨ ∃ a t, Undisturbed s a ∧
        s.step a = some t ∧ t.Within qs most ∧ t.load qs most < s.load qs most := by
      intro s hI
      by_cases hrest : s.AtRest
      · exact Or.inl hrest
      · obtain ⟨a, u, ha, hstep, hbusy⟩ := exists_busy_of_not_atRest hrest
        obtain ⟨hu, hle⟩ := hI.step ha hstep
        rw [if_pos hbusy] at hle
        exact Or.inr ⟨a, u, ha, hstep, hu, by omega⟩
    obtain ⟨t, hreach, -, hrest⟩ :=
      Transition.exists_reachesWhen_of_measure (load qs most) hprogress hwithin
    exact ⟨t, hreach, hrest⟩

/-- The theorem at a state in which a job has just scheduled a retry and another message is
about to be delivered. -/
theorem settles_retry : ∃ s : Sys, (∃ job ∈ s.jobs, job.pc = .ack) ∧
    ∃ bound, ∀ labels t, Transition.run (Transition.guard step Undisturbed) s labels = some t →
      Transition.countWhen step Busy s labels ≤ bound := by
  obtain ⟨s, hrun, hjobs⟩ := Transition.exists_run_of_check step init
    (accept 0 { queue := "q", taskName := "t", payload := .null } ⟨1⟩ ++
      accept 1 { queue := "q", taskName := "t", payload := .null } ⟨2⟩ ++
      [.deliver "a" 100 "q"] ++ proceeds 0 3 ++ [.handler 0 (.raised "ValueError" "boom")] ++
      proceeds 0 3)
    (fun s => ∃ job ∈ s.jobs, job.pc = .ack) (by decide +kernel)
  exact ⟨s, hjobs, (settles (.of_run hrun)).1⟩

end Sys

end Dtq
