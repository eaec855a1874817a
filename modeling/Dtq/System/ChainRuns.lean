import Dtq.System.Chain

/-!
# Runs of the retry chain

What anybody may do to a chain of retries keeps its invariant, and something can be done about
it until the token has come to its end: with a success, with a dead letter, or dropped where the
delay of a retry cannot be computed. What a chain at rest has come to is then read off the
invariant.

## Main results

* `RetryChain.Chain.step` — one step of the chain
* `RetryChain.exists_atRest` — the chain can be brought to rest from everywhere
* `RetryChain.retry_chain_exact_iff` — when the chain is exact
-/

set_option autoImplicit false

namespace Dtq

namespace RetryChain

variable {c : RetryChain} {s : Sys} {attempt : ℕ} {stage stage' : Stage} {job job' : Job}
  {stores' : Stores} {now draw : ℚ}

/-! ### The other moves -/

/-- Once the handler of the token has been started, every job is an execution. -/
theorem Chain.executions_eq (h : c.Chain attempt stage s) (hstarted : stage.started = true) :
    s.executions c.envelope.taskId = s.jobs := by
  refine List.filter_eq_self.mpr fun job hmem => decide_eq_true ?_
  obtain ⟨k, hk⟩ := List.mem_iff_getElem?.mp hmem
  rcases h.position hk with hlt | ⟨rfl, -, -⟩
  · exact ⟨(h.past k job hlt hk).started, (h.past k job hlt hk).taskId⟩
  · exact ⟨(h.current job hk).started.trans hstarted, (h.current job hk).taskId⟩

/-- So the number of the execution is the number of handlers started so far. -/
theorem Chain.length_executions (h : c.Chain attempt stage s) (hdelivered : stage.delivered = 1)
    (hstarted : stage.started = true) :
    (s.executions c.envelope.taskId).length = attempt + 1 := by
  rw [h.executions_eq hstarted, h.length, hdelivered]

/-- The handler of the token ends as it is to end. -/
theorem Chain.handlerEnds (h : c.Chain attempt (.working (.execute .handlerRunning)) s)
    (hjob : s.jobs[attempt]? = some job) :
    ∃ job' stage', job.handlerEnds (c.outcomes (attempt + 1)) = some job' ∧
      c.Chain attempt stage' (s.setJob attempt s.stores job') ∧
      c.load (s.setJob attempt s.stores job') < c.load s := by
  have hcurrent := h.current job hjob
  have hpc : job.pc = .execute .handlerRunning := hcurrent.pc
  obtain ⟨holder, hholder, howns⟩ := h.leases.held rfl
  obtain rfl := Option.mem_unique hjob hholder
  -- however the handler ends, the job goes to a next statement with the tables as they are
  have hgoes : ∀ {next : ExecutePc}, weight (.execute next) < 12 → next ≠ .acquireLease →
      (Stage.working (.execute next)).recorded = 1 →
      (Stage.working (.execute next)).started = true →
      (Stage.working (.execute next)).committed = false →
      c.Agrees attempt (.working (.execute next)) →
      c.Chain attempt (.working (.execute next)) (s.setJob attempt s.stores (job.goto next)) ∧
        c.load (s.setJob attempt s.stores (job.goto next)) < c.load s := by
    intro next hweight hacquire hrecorded hstarted hcommitted hagrees
    have hfenced : (Stage.working (.execute next)).fenced = 1 := by cases next <;> simp_all
    have hholds : (Stage.working (.execute next)).holds = true := by cases next <;> simp_all
    constructor
    · refine h.advance hjob ⟨rfl, rfl⟩ hagrees
        (hcurrent.moves rfl ⟨rfl, rfl, rfl, rfl⟩ rfl (hcurrent.started.trans hstarted.symm))
        h.queue (fun p hp => ⟨hp, fun _ => Or.inl (by simp [Job.goto])⟩) ?_ ?_
      · rw [hrecorded, hcommitted]
        exact h.tables
      · rw [hfenced, hholds]
        exact ⟨h.leases.fenceSeq, fun _ => ⟨_, rfl, howns⟩, by simp⟩
    · apply load_setJob hjob
      rw [hpc]
      exact Nat.add_lt_add_left hweight _
  cases houtcome : c.outcomes (attempt + 1) with
  | returned result =>
    exact ⟨_, _, if_pos hpc, hgoes (by simp [weight]) (by simp) rfl rfl rfl houtcome⟩
  | timedOut ms | fenceRejected message =>
    exact ⟨_, _, if_pos hpc, hgoes (by simp [weight]) (by simp) rfl rfl rfl
      (by simp [Agrees, houtcome, HandlerOutcome.Success])⟩
  | raised errorType traceback =>
    exact ⟨_, _, if_pos (Or.inl hpc), hgoes (by simp [weight]) (by simp) rfl rfl rfl
      (by simp [Agrees, houtcome, HandlerOutcome.Success])⟩

/-- The delay of the retry cannot be computed, and the entry is dropped as it is. -/
theorem Chain.drops {text : Option String}
    (h : c.Chain attempt (.working (.returned false text)) s)
    (hjob : s.jobs[attempt]? = some job) (hlimit : attempt + 1 < c.limit)
    (hlarge : 1024 ≤ attempt) :
    c.Chain attempt .stuck (s.setJob attempt s.stores { job with pc := .ended }) ∧
      c.load (s.setJob attempt s.stores { job with pc := .ended }) < c.load s := by
  have hcurrent := h.current job hjob
  have hpc : job.pc = .returned false text := hcurrent.pc
  constructor
  · exact h.advance hjob ⟨rfl, rfl⟩ ⟨h.agrees, hlimit, Nat.le_antisymm h.room.2 hlarge⟩
      (hcurrent.moves rfl ⟨rfl, rfl, rfl, rfl⟩ rfl hcurrent.started) h.queue
      (fun p hp => ⟨hp, fun _ => Or.inr rfl⟩) h.tables
      ⟨h.leases.fenceSeq, by simp, fun _ => h.leases.free rfl⟩
  · apply load_setJob hjob
    rw [hpc]
    exact Nat.add_lt_add_left (by simp [weight]) _

/-- An earlier job acknowledges its entry. -/
theorem Chain.ack_past {k : ℕ} (now draw : ℚ) (h : c.Chain attempt stage s) (hk : k < attempt)
    (hjob : s.jobs[k]? = some job) (hpc : job.pc = .ack) :
    job.proceed s.stores s.locks now draw =
        some (job.onQueue s.stores (·.ack job.msgId), { job with pc := .ended }) ∧
      c.Chain attempt stage
        (s.setJob k (job.onQueue s.stores (·.ack job.msgId)) { job with pc := .ended }) ∧
      c.load (s.setJob k (job.onQueue s.stores (·.ack job.msgId)) { job with pc := .ended }) <
        c.load s := by
  have hpast := h.past k job hk hjob
  have hqueue : (job.onQueue s.stores (·.ack job.msgId)).redis.queues c.queue =
      (s.redis.queues c.queue).ack k := by
    rw [hpast.onQueue, hpast.msgId]
    rfl
  -- an acknowledgement of an earlier entry concerns neither the token nor the other jobs
  have hsame : ∀ {l : ℕ}, l ≠ k → (s.setJob k (job.onQueue s.stores (·.ack job.msgId))
      { job with pc := .ended }).jobs[l]? = s.jobs[l]? := Indexed.getElem?_set_of_ne
  refine ⟨by simp [Job.proceed, hpc], ?_, ?_⟩
  · refine ⟨h.failed, h.room, h.agrees, ?_, fun l job₁ hl hjob₁ => ?_, fun job₁ hjob₁ => ?_, ?_,
      fun p hp => ?_, h.tables, ?_, h.requeues⟩
    · rw [Sys.setJob_jobs, List.length_set, h.length]
    · by_cases hlk : l = k
      · subst hlk
        obtain rfl := Indexed.eq_of_getElem?_set hjob₁
        exact ⟨⟨hpast.queue, hpast.msgId, hpast.envelope⟩, Or.inr rfl, hpast.started, hpast.fence⟩
      · exact h.past l job₁ hl ((hsame hlk).symm.trans hjob₁)
    · exact h.current job₁ ((hsame (Nat.ne_of_gt hk)).symm.trans hjob₁)
    · rw [Sys.setJob_redis, hqueue]
      exact ⟨h.queue.stream, h.queue.delivered, h.queue.sched, h.queue.dlq⟩
    · rw [Sys.setJob_redis, hqueue] at hp
      obtain ⟨hold, hne⟩ := List.mem_filter.mp hp
      obtain ⟨job₁, hjob₁, hunfinished⟩ := h.pending p hold
      exact ⟨job₁, (hsame (by simpa using hne)).trans hjob₁, hunfinished⟩
    · rw [hsame (Nat.ne_of_gt hk)]
      exact h.leases
  · apply load_setJob hjob
    rw [hqueue, hpc]
    exact Nat.add_lt_add_left (by simp [weight]) _

/-- A job for the token takes the position that its entry has on the stream. -/
theorem Chain.spawn {state : QueueState} {consumer : String} (h : c.Chain attempt .undelivered s)
    (hstate : state = { s.redis.queues c.queue with
      delivered := (s.redis.queues c.queue).delivered + 1
      pending := (s.redis.queues c.queue).pending ++
        [⟨(s.redis.queues c.queue).delivered, consumer⟩] })
    (hnew : c.Current attempt (.working (.execute .acquireLease)) job) :
    c.Chain attempt (.working (.execute .acquireLease)) (s.spawn c.queue state job) ∧
      c.load (s.spawn c.queue state job) < c.load s := by
  have hdelivered : (s.redis.queues c.queue).delivered = attempt := h.queue.delivered
  have hlength : s.jobs.length = attempt := h.length
  have hpc : job.pc = .execute .acquireLease := hnew.pc
  have hat : (s.spawn c.queue state job).jobs[attempt]? = some job := by
    rw [Sys.spawn_jobs, ← hlength, List.getElem?_concat_length]
  have hqueue : (s.spawn c.queue state job).redis.queues c.queue = state := by
    rw [Sys.spawn_redis, Redis.modifyQueue_self]
  refine ⟨⟨h.failed, h.room, trivial, ?_, fun l job₁ hl hjob₁ => ?_, fun job₁ hjob₁ => ?_, ?_,
    fun p hp => ?_, h.tables, ⟨h.leases.fenceSeq, by simp, fun _ => h.leases.free rfl⟩,
    h.requeues⟩, ?_⟩
  · simp [hlength]
  · rw [Sys.spawn_jobs, List.getElem?_append_left (by omega)] at hjob₁
    exact h.past l job₁ hl hjob₁
  · obtain rfl := Option.mem_unique hat hjob₁
    exact hnew
  · rw [hqueue, hstate]
    exact ⟨h.queue.stream, by simp [hdelivered], h.queue.sched, h.queue.dlq⟩
  · rw [hqueue, hstate] at hp
    rcases List.mem_append.mp hp with hp | hp
    · obtain ⟨job₁, hjob₁, hunfinished⟩ := h.pending p hp
      exact ⟨job₁, Indexed.getElem?_of_grow (List.prefix_append _ _) hjob₁,
        Or.inl (hunfinished.resolve_right (by simp))⟩
    · obtain rfl := List.mem_singleton.mp hp
      exact ⟨job, by rw [hdelivered, hat], Or.inl (by simp [hpc])⟩
  · -- the entry is handed out and the job starts at the top of its weight: one less in all
    have hroom := h.room.2
    have hstream : (s.redis.queues c.queue).stream.length = attempt + 1 := by
      rw [h.queue.stream]
      simp
    rw [load, hqueue, hstate]
    simp only [load, Sys.spawn_jobs, queueLoad, List.length_append, List.length_singleton,
      List.map_append, List.map_singleton, List.sum_append, List.sum_singleton, hpc, weight,
      hlength, hdelivered, hstream]
    omega

/-- What can be delivered is the entry of the token. -/
theorem Chain.deliver {workerId : String} {leaseMs : ℕ+} {s' : Sys}
    (h : c.Chain attempt stage s) (hstep : s.step (.deliver workerId leaseMs c.queue) = some s') :
    stage = .undelivered ∧ c.Chain attempt (.working (.execute .acquireLease)) s' ∧
      c.load s' < c.load s := by
  obtain ⟨⟨state, msgId, envelope⟩, hlease, rfl⟩ := Option.map_eq_some_iff.mp hstep
  obtain ⟨rfl, hentry, rfl⟩ := QueueState.lease_eq_some hlease
  -- the group has been given every entry before the token's
  rw [h.queue.stream, h.queue.delivered] at hentry
  have hlt := (List.getElem?_eq_some_iff.mp hentry).1
  rw [List.length_map, List.length_range] at hlt
  obtain rfl : stage = .undelivered := by
    cases stage <;> simp at hlt ⊢
  obtain rfl : envelope = c.numbered attempt := by
    simpa using hentry.symm
  exact ⟨rfl, h.spawn rfl ⟨⟨rfl, h.queue.delivered, rfl⟩, rfl, rfl, by simp⟩⟩

/-- A promotion with nothing due. -/
theorem promoteScheduled_of_idle {q : QueueState} {now : ℚ} (hidle : q.due now 100 = []) :
    q.promoteScheduled now = q := by
  rw [QueueState.promoteScheduled_eq, hidle]
  simp

theorem modifyQueue_of_eq {r : Redis} {queue : String} {f : QueueState → QueueState}
    (hsame : f (r.queues queue) = r.queues queue) : r.modifyQueue queue f = r := by
  simp [Redis.modifyQueue, hsame]

/-- The retry is promoted once it is due. -/
theorem Chain.promoted {runAt : ℚ} (h : c.Chain attempt .scheduled s)
    (hsched : (s.redis.queues c.queue).sched = [(c.numbered attempt, runAt)])
    (hdue : runAt ≤ now) :
    c.Chain attempt .undelivered
        { s with redis := s.redis.modifyQueue c.queue (·.promoteScheduled now) } ∧
      c.load { s with redis := s.redis.modifyQueue c.queue (·.promoteScheduled now) } <
        c.load s := by
  have hqueue : (s.redis.modifyQueue c.queue (·.promoteScheduled now)).queues c.queue =
      { s.redis.queues c.queue with
        stream := (s.redis.queues c.queue).stream ++ [c.numbered attempt]
        sched := [] } := by
    have hbatch : (s.redis.queues c.queue).due now 100 = [c.numbered attempt] := by
      simp [QueueState.due, hsched, hdue]
    rw [Redis.modifyQueue_self, QueueState.promoteScheduled_eq, hbatch, hsched]
    simp
  have hstream : (s.redis.queues c.queue).stream = (List.range attempt).map c.numbered :=
    h.queue.stream
  have hdelivered : (s.redis.queues c.queue).delivered = attempt := h.queue.delivered
  refine ⟨⟨h.failed, h.room, trivial, h.length, h.past, fun job hjob => ?_, ?_, fun p hp => ?_,
    h.tables, h.leases, h.requeues⟩, ?_⟩
  · -- there is no job for this attempt yet
    have hout := (List.getElem?_eq_some_iff.mp hjob).1
    have hlength : s.jobs.length = attempt := h.length
    exact absurd hout (by simp [hlength])
  · rw [hqueue]
    refine ⟨?_, hdelivered, rfl, h.queue.dlq⟩
    simp [hstream, List.range_succ]
  · rw [hqueue] at hp
    obtain ⟨job, hjob, hunfinished⟩ := h.pending p hp
    exact ⟨job, hjob, Or.inl (hunfinished.resolve_right (by simp))⟩
  · have hless : queueLoad ((s.redis.modifyQueue c.queue (·.promoteScheduled now)).queues c.queue) <
        queueLoad (s.redis.queues c.queue) := by
      rw [hqueue]
      simp [queueLoad, hsched, hstream, hdelivered]
    exact Nat.add_lt_add_left hless _

/-- A tick of the scheduler when the token is not scheduled. -/
theorem Chain.promote_idle (h : c.Chain attempt stage s) (hstream : stage.onStream = 1) :
    s.redis.modifyQueue c.queue (·.promoteScheduled now) = s.redis := by
  have hnone : (s.redis.queues c.queue).sched = [] := by
    have hsched := h.queue.sched
    rw [if_neg (by omega)] at hsched
    exact List.map_eq_nil_iff.mp hsched
  exact modifyQueue_of_eq (promoteScheduled_of_idle (by simp [QueueState.due, hnone]))

theorem Chain.exists_scheduled (h : c.Chain attempt .scheduled s) :
    ∃ runAt, (s.redis.queues c.queue).sched = [(c.numbered attempt, runAt)] := by
  obtain ⟨⟨e, runAt⟩, hm, rfl⟩ := List.map_eq_singleton_iff.mp h.queue.sched
  exact ⟨runAt, hm⟩

/-- A tick of the scheduler promotes the token or nothing. -/
theorem Chain.promote (now : ℚ) (h : c.Chain attempt stage s) :
    ∃ stage', c.Chain attempt stage'
        { s with redis := s.redis.modifyQueue c.queue (·.promoteScheduled now) } ∧
      ({ s with redis := s.redis.modifyQueue c.queue (·.promoteScheduled now) } = s ∨
        c.load { s with redis := s.redis.modifyQueue c.queue (·.promoteScheduled now) } <
          c.load s) := by
  cases stage with
  | scheduled =>
    obtain ⟨runAt, hsched⟩ := h.exists_scheduled
    by_cases hdue : runAt ≤ now
    · obtain ⟨hchain, hless⟩ := h.promoted hsched hdue
      exact ⟨_, hchain, Or.inr hless⟩
    · have hidle : (s.redis.queues c.queue).due now 100 = [] := by
        simp [QueueState.due, hsched, hdue]
      rw [modifyQueue_of_eq (promoteScheduled_of_idle hidle)]
      exact ⟨.scheduled, h, Or.inl rfl⟩
  | undelivered | working | finished | stuck =>
    rw [h.promote_idle rfl]
    exact ⟨_, h, Or.inl rfl⟩

/-- A renewal changes no lease's owner. -/
theorem owner_extendLease (store : LeaseStore) (taskId workerId : String) (fence : ℤ)
    (leaseMs : ℕ+) (name : String) :
    ((store.extendLease taskId workerId fence leaseMs).1.leases name).map Lease.owner =
      (store.leases name).map Lease.owner := by
  unfold LeaseStore.extendLease
  split <;> [split; skip]
  case h_1.isTrue lease hheld _ =>
    by_cases hname : name = taskId
    · simp [hname, hheld]
    · simp [hname]
  all_goals rfl

theorem Chain.heartbeat (h : c.Chain attempt stage s)
    (hbeat : job.heartbeat s.stores = some stores') :
    c.Chain attempt stage (s.withStores stores') := by
  simp only [Job.heartbeat] at hbeat
  split_ifs at hbeat with hpc
  obtain rfl := Option.some.inj hbeat
  have howner := owner_extendLease s.redis.leaseStore job.taskText job.workerId job.fence
    job.leaseMs
  refine ⟨h.failed, h.room, h.agrees, h.length, h.past, h.current, h.queue, h.pending, h.tables,
    ⟨?_, fun hholds => ?_, fun hholds => ?_⟩, h.requeues⟩
  · exact (LeaseStore.extendLease_fenceSeq ..).trans h.leases.fenceSeq
  · obtain ⟨holder, hholder, lease, hheld, hown⟩ := h.leases.held hholds
    have hsame := howner holder.taskText
    rw [Option.mem_def.mp hheld, Option.map_some, Option.map_eq_some_iff] at hsame
    obtain ⟨lease', hheld', hown'⟩ := hsame
    exact ⟨holder, hholder, lease', hheld', hown'.trans hown⟩
  · have hsame := howner c.taskText
    rw [h.leases.free hholds, Option.map_none, Option.map_eq_none_iff] at hsame
    exact hsame

/-! ### Steps and runs -/

/-- A job that has more than an acknowledgement left is the token's. -/
theorem Chain.of_active {i : ℕ} (h : c.Chain attempt stage s) (hjob : s.jobs[i]? = some job)
    (hack : job.pc ≠ .ack) (hended : job.pc ≠ .ended) :
    i = attempt ∧ stage = .working job.pc := by
  rcases h.position hjob with hlt | ⟨rfl, -, hpc⟩
  · rcases (h.past i job hlt hjob).pc with hpc | hpc
    · exact absurd hpc hack
    · exact absurd hpc hended
  · cases stage with
    | working pc => exact ⟨rfl, congrArg Stage.working hpc.symm⟩
    | undelivered | scheduled | finished | stuck => exact absurd hpc hended

/-- A call of a job returns. -/
theorem Chain.step_ok {i : ℕ} {out : Stores × Job} (h : c.Chain attempt stage s)
    (hjob : s.jobs[i]? = some job) (hout : job.proceed s.stores s.locks now draw = some out) :
    (∃ attempt' stage', c.Chain attempt' stage' (s.setJob i out.1 out.2)) ∧
      c.load (s.setJob i out.1 out.2) < c.load s := by
  have hended : job.pc ≠ .ended := fun hpc => by simp [Job.proceed, hpc] at hout
  have hgoes : ∀ {pc}, stage = .working pc → i = attempt → pc = job.pc →
      (∃ attempt' stage', c.Chain attempt' stage' (s.setJob i out.1 out.2)) ∧
        c.load (s.setJob i out.1 out.2) < c.load s := by
    rintro pc rfl rfl rfl
    obtain ⟨out', attempt', stage', hout', hchain, hless⟩ : c.Goes s i job now draw := by
      refine h.goes_working hjob (fun hpc => ?_) fun text hpc hlimit => ?_
      · simp [Job.proceed, hpc, Job.executeOk] at hout
      · -- a delay was computed, since the call has returned
        by_contra hlarge
        have hcurrent := h.current job hjob
        have hnone : computeDelay job.envelope.retryPolicy (job.envelope.attempt + 1) draw =
            none := by
          rw [hcurrent.envelope]
          exact Job.computeDelay_eq_none_iff.mpr (not_lt.mp hlarge)
        simp [Job.proceed, hpc, hcurrent.retries_iff.mpr hlimit, hnone] at hout
    obtain rfl := Option.mem_unique hout' hout
    exact ⟨⟨attempt', stage', hchain⟩, hless⟩
  by_cases hack : job.pc = .ack
  · rcases h.position hjob with hlt | ⟨hi, -, hpc⟩
    · obtain ⟨hproceed, hchain, hless⟩ := h.ack_past now draw hlt hjob hack
      obtain rfl := Option.mem_unique hproceed hout
      exact ⟨⟨attempt, stage, hchain⟩, hless⟩
    · have hstage : stage = .working .ack := by
        rw [hack] at hpc
        cases stage <;> simp_all
      exact hgoes hstage hi hack.symm
  · obtain ⟨hi, hstage⟩ := h.of_active hjob hack hended
    exact hgoes hstage hi rfl

/-- **One step of the chain.** Whatever is allowed to happen, the token goes on in its stage,
to the next one or to the next attempt; and there is less to do after it, unless a lease was
renewed or nothing has changed. -/
theorem Chain.step {a : Action} {s' : Sys} (h : c.Chain attempt stage s) (hallowed : c.Allows s a)
    (hstep : s.step a = some s') : (∃ attempt' stage', c.Chain attempt' stage' s') ∧
      ((∃ i, a = .heartbeat i) ∨ s' = s ∨ c.load s' < c.load s) := by
  cases a with
  | deliver workerId leaseMs queue =>
    obtain rfl : queue = c.queue := hallowed
    obtain ⟨-, hchain, hless⟩ := h.deliver hstep
    exact ⟨⟨_, _, hchain⟩, Or.inr (Or.inr hless)⟩
  | promote queue now =>
    obtain rfl : queue = c.queue := hallowed
    obtain rfl := Option.some.inj hstep
    obtain ⟨stage', hchain, hsame | hless⟩ := h.promote now
    · exact ⟨⟨_, _, hchain⟩, Or.inr (Or.inl hsame)⟩
    · exact ⟨⟨_, _, hchain⟩, Or.inr (Or.inr hless)⟩
  | heartbeat i =>
    obtain ⟨job, hjob, hrest⟩ := Option.bind_eq_some_iff.mp hstep
    obtain ⟨stores', hbeat, rfl⟩ := Option.map_eq_some_iff.mp hrest
    exact ⟨⟨_, _, h.heartbeat hbeat⟩, Or.inl ⟨i, rfl⟩⟩
  | handler i outcome =>
    obtain ⟨⟨job, hjob, hrunning⟩, rfl⟩ := hallowed
    obtain ⟨rfl, hstage⟩ := h.of_active hjob (by simp [hrunning]) (by simp [hrunning])
    rw [hrunning] at hstage
    subst hstage
    obtain ⟨closing, hclosing, rfl⟩ := Sys.handlerEnds_of_step hjob hstep
    rw [h.length_executions rfl rfl] at hclosing
    obtain ⟨closing', stage', hends, hchain, hless⟩ := h.handlerEnds hjob
    obtain rfl := Option.mem_unique hends hclosing
    exact ⟨⟨_, _, hchain⟩, Or.inr (Or.inr hless)⟩
  | jobStep i reply =>
    obtain ⟨job, hjob, hrest⟩ := Option.bind_eq_some_iff.mp hstep
    cases reply with
    | ok now draw =>
      obtain ⟨out, hout, rfl⟩ := Option.map_eq_some_iff.mp hrest
      obtain ⟨hchain, hless⟩ := h.step_ok hjob hout
      exact ⟨hchain, Or.inr (Or.inr hless)⟩
    | raise applied now draw message =>
      obtain ⟨job₁, hjob₁, text, hpc, hretry, hoverflow⟩ := hallowed
      obtain rfl := Option.mem_unique hjob hjob₁
      obtain ⟨rfl, hstage⟩ := h.of_active hjob (by simp [hpc]) (by simp [hpc])
      rw [hpc] at hstage
      subst hstage
      have hcurrent := h.current job hjob
      have hlarge : 1024 ≤ i := by
        rw [Job.delayOverflows, hcurrent.envelope] at hoverflow
        exact hoverflow
      -- the exception comes before anything is written
      obtain rfl := Sys.stores_eq_of_overflow hjob hpc hretry hoverflow hstep
      obtain ⟨hchain, hless⟩ := h.drops hjob (hcurrent.retries_iff.mp hretry) hlarge
      exact ⟨⟨_, _, hchain⟩, Or.inr (Or.inr hless)⟩
    | crash => exact hallowed.elim
  | post | postStep | produce | requeue | requeueStep | cancel | adopt | expire =>
    exact hallowed.elim

/-- The token has come to an end. -/
def Stage.Final : Stage → Prop
  | .finished _ | .stuck => True
  | _ => False

variable (c) in
/-- Something may happen that leaves less to do. -/
def GetsOn (s : Sys) : Prop :=
  ∃ a s', c.Allows s a ∧ s.step a = some s' ∧ (∃ attempt stage, c.Chain attempt stage s') ∧
    c.load s' < c.load s

/-- A job that may make a call that returns gets on. -/
theorem getsOn_of_proceed {k : ℕ} {out : Stores × Job} (hjob : s.jobs[k]? = some job)
    (hproceed : job.proceed s.stores s.locks now draw = some out)
    (hchain : ∃ attempt stage, c.Chain attempt stage (s.setJob k out.1 out.2))
    (hless : c.load (s.setJob k out.1 out.2) < c.load s) : c.GetsOn s :=
  ⟨.jobStep k (.ok now draw), _, trivial, Sys.step_of_proceed hjob hproceed, hchain, hless⟩

theorem Chain.getsOn_undelivered (h : c.Chain attempt .undelivered s) : c.GetsOn s := by
  obtain ⟨out, hlease⟩ : ∃ out, (s.redis.queues c.queue).lease "worker" = some out := by
    refine ⟨_, Option.map_eq_some_iff.mpr ⟨c.numbered attempt, ?_, rfl⟩⟩
    rw [h.queue.stream, h.queue.delivered]
    simp
  obtain ⟨s', hstep⟩ : ∃ s', s.step (.deliver "worker" 1 c.queue) = some s' :=
    ⟨_, Option.map_eq_some_iff.mpr ⟨out, hlease, rfl⟩⟩
  obtain ⟨-, hchain, hless⟩ := h.deliver hstep
  exact ⟨.deliver "worker" 1 c.queue, s', rfl, hstep, ⟨_, _, hchain⟩, hless⟩

theorem Chain.getsOn_scheduled (h : c.Chain attempt .scheduled s) : c.GetsOn s := by
  obtain ⟨runAt, hsched⟩ := h.exists_scheduled
  obtain ⟨hchain, hless⟩ := h.promoted hsched le_rfl
  exact ⟨.promote c.queue runAt, _, rfl, rfl, ⟨_, _, hchain⟩, hless⟩

/-- The handler ends. -/
theorem Chain.getsOn_running (h : c.Chain attempt (.working (.execute .handlerRunning)) s)
    (hjob : s.jobs[attempt]? = some job) : c.GetsOn s := by
  obtain ⟨job', stage', hends, hchain, hless⟩ := h.handlerEnds hjob
  refine ⟨.handler attempt (c.outcomes (attempt + 1)), _,
    ⟨⟨job, hjob, (h.current job hjob).pc⟩, ?_⟩, ?_, ⟨_, _, hchain⟩, hless⟩
  · rw [h.length_executions rfl rfl]
  · simp [Sys.step, hjob, hends]

/-- The exception of `compute_delay` comes out of `_process_message`. -/
theorem Chain.getsOn_dropping {text : Option String}
    (h : c.Chain attempt (.working (.returned false text)) s)
    (hjob : s.jobs[attempt]? = some job) (hlimit : attempt + 1 < c.limit)
    (hlarge : 1024 ≤ attempt) : c.GetsOn s := by
  have hcurrent := h.current job hjob
  have hpc : job.pc = .returned false text := hcurrent.pc
  have hoverflow : job.delayOverflows := by
    rw [Job.delayOverflows, hcurrent.envelope]
    exact hlarge
  obtain ⟨hchain, hless⟩ := h.drops hjob hlimit hlarge
  refine ⟨.jobStep attempt (.raise false 0 0 "int too large to convert to float"), _,
    ⟨job, hjob, text, hpc, hcurrent.retries_iff.mpr hlimit, hoverflow⟩, ?_, ⟨_, _, hchain⟩, hless⟩
  simp [Sys.step, hjob, Sys.stepJob, Job.raised, hpc]

theorem Chain.getsOn_working {pc : Pc} (h : c.Chain attempt (.working pc) s) : c.GetsOn s := by
  obtain ⟨job, hjob⟩ : ∃ job, s.jobs[attempt]? = some job :=
    ⟨_, List.getElem?_eq_getElem (by rw [h.length]; simp)⟩
  by_cases hrunning : pc = .execute .handlerRunning
  · subst hrunning
    exact h.getsOn_running hjob
  by_cases hdrop : ∃ text, pc = .returned false text ∧ attempt + 1 < c.limit ∧ 1024 ≤ attempt
  · obtain ⟨text, rfl, hlimit, hlarge⟩ := hdrop
    exact h.getsOn_dropping hjob hlimit hlarge
  · obtain ⟨out, attempt', stage', hproceed, hchain, hless⟩ : c.Goes s attempt job 0 0 := by
      refine h.goes_working hjob hrunning fun text hpc hlimit => ?_
      by_contra hlarge
      exact hdrop ⟨text, hpc, hlimit, not_lt.mp hlarge⟩
    exact getsOn_of_proceed hjob hproceed ⟨_, _, hchain⟩ hless

/-- **Progress.** As long as the token has not come to its end and every job to its own,
something may happen that leaves less to do. -/
theorem Chain.progress (h : c.Chain attempt stage s) :
    (stage.Final ∧ ∀ job ∈ s.jobs, job.pc = .ended) ∨ c.GetsOn s := by
  by_cases hpast : ∃ k job, k < attempt ∧ s.jobs[k]? = some job ∧ job.pc = .ack
  · -- an earlier job has its acknowledgement left
    obtain ⟨k, job, hk, hjob, hpc⟩ := hpast
    obtain ⟨hproceed, hchain, hless⟩ := h.ack_past 0 0 hk hjob hpc
    exact Or.inr (getsOn_of_proceed hjob hproceed ⟨_, _, hchain⟩ hless)
  have hfinal : stage.Final → ∀ job ∈ s.jobs, job.pc = .ended := by
    intro hstage job hmem
    obtain ⟨k, hk⟩ := List.mem_iff_getElem?.mp hmem
    rcases h.position hk with hlt | ⟨rfl, -, hpc⟩
    · exact (h.past k job hlt hk).pc.resolve_left fun hpc => hpast ⟨k, job, hlt, hk, hpc⟩
    · rw [hpc]
      cases stage <;> simp [Stage.Final] at hstage ⊢
  cases stage with
  | finished | stuck => exact Or.inl ⟨trivial, hfinal trivial⟩
  | undelivered => exact Or.inr h.getsOn_undelivered
  | scheduled => exact Or.inr h.getsOn_scheduled
  | working pc => exact Or.inr h.getsOn_working

/-- At its end the chain is at rest. -/
theorem Chain.atRest (h : c.Chain attempt stage s) (hfinal : stage.Final)
    (hended : ∀ job ∈ s.jobs, job.pc = .ended) : c.AtRest s := by
  intro a s' hallowed hstep
  have hpc : ∀ {i : ℕ} {job : Job}, s.jobs[i]? = some job → job.pc = .ended := fun hjob =>
    hended _ (List.mem_of_getElem? hjob)
  cases a with
  | deliver workerId leaseMs queue =>
    obtain rfl : queue = c.queue := hallowed
    obtain ⟨rfl, -, -⟩ := h.deliver hstep
    exact hfinal.elim
  | promote queue now =>
    obtain rfl : queue = c.queue := hallowed
    obtain rfl := Option.some.inj hstep
    rw [h.promote_idle (by cases stage <;> simp [Stage.Final] at hfinal ⊢)]
  | heartbeat i =>
    obtain ⟨job, hjob, hrest⟩ := Option.bind_eq_some_iff.mp hstep
    simp [Job.heartbeat, hpc hjob] at hrest
  | handler i outcome =>
    obtain ⟨⟨job, hjob, hrunning⟩, -⟩ := hallowed
    simp [hpc hjob] at hrunning
  | jobStep i reply =>
    obtain ⟨job, hjob, hrest⟩ := Option.bind_eq_some_iff.mp hstep
    exact absurd hstep (Sys.step_of_ended hjob (hpc hjob))
  | post | postStep | produce | requeue | requeueStep | cancel | adopt | expire =>
    exact hallowed.elim

/-- A chain at rest has come to its end. -/
theorem Chain.final_of_atRest (h : c.Chain attempt stage s) (hrest : c.AtRest s) :
    stage.Final ∧ ∀ job ∈ s.jobs, job.pc = .ended := by
  refine h.progress.resolve_right ?_
  rintro ⟨a, s', hallowed, hstep, -, hless⟩
  rw [hrest a s' hallowed hstep] at hless
  exact absurd hless (lt_irrefl _)

/-- From everywhere the chain can be brought to rest. -/
theorem exists_atRest (h : ∃ attempt stage, c.Chain attempt stage s) :
    ∃ s', Transition.ReachesWhen Sys.step c.Allows s s' ∧
      (∃ attempt stage, c.Chain attempt stage s') ∧ c.AtRest s' := by
  refine Transition.exists_reachesWhen_of_measure (I := fun s => ∃ attempt stage,
    c.Chain attempt stage s) c.load (fun s hs => ?_) h
  obtain ⟨attempt, stage, hchain⟩ := hs
  rcases hchain.progress with ⟨hfinal, hended⟩ | hless
  · exact Or.inl (hchain.atRest hfinal hended)
  · exact Or.inr hless

theorem Starts.chain_of_reaches {s₀ : Sys} (hstart : c.Starts s₀)
    (hrun : Transition.ReachesWhen Sys.step c.Allows s₀ s) :
    ∃ attempt stage, c.Chain attempt stage s :=
  hrun.invariant (I := fun s => ∃ attempt stage, c.Chain attempt stage s)
    (fun _ _ _ ⟨_, _, h⟩ hallowed hstep => (h.step hallowed hstep).1)
    ⟨0, .undelivered, hstart.chain⟩

/-! ### What the chain has come to -/

theorem firstSuccess_eq {k : ℕ} (hpos : 1 ≤ k) (hfailed : ∀ j, 1 ≤ j → j < k →
    ¬ (c.outcomes j).Success) (hsuccess : (c.outcomes k).Success) : c.firstSuccess = k := by
  classical
  have hex : ∃ k, 1 ≤ k ∧ (c.outcomes k).Success := ⟨k, hpos, hsuccess⟩
  have hfind : Nat.find hex = k :=
    (Nat.find_eq_iff hex).mpr ⟨⟨hpos, hsuccess⟩, fun j hlt hj => hfailed j hj.1 hlt hj.2⟩
  rw [firstSuccess, dif_pos hex]
  exact_mod_cast hfind

theorem lt_firstSuccess {m : ℕ} (hfailed : ∀ j, 1 ≤ j → j ≤ m → ¬ (c.outcomes j).Success) :
    (m : ℕ∞) < c.firstSuccess := by
  classical
  rw [firstSuccess]
  split
  case isTrue hex =>
    have hlt : m < Nat.find hex := by
      by_contra hle
      obtain ⟨hpos, hsuccess⟩ := Nat.find_spec hex
      exact hfailed _ hpos (not_lt.mp hle) hsuccess
    exact_mod_cast hlt
  case isFalse => exact ENat.natCast_lt_top m

/-- What every job's attempt and fence say, in the order of the jobs. -/
theorem Chain.jobs_map {β : Type} (h : c.Chain attempt stage s) (hdelivered : stage.delivered = 1)
    (hfenced : stage.fenced = 1) (f : Job → β) (g : ℕ → β)
    (hjob : ∀ k job, c.Carries k job → job.fence = c.fenceSeq + k + 1 → f job = g k) :
    s.jobs.map f = (List.range (attempt + 1)).map g := by
  have hlength : s.jobs.length = attempt + 1 := by rw [h.length, hdelivered]
  apply List.ext_getElem?
  intro k
  rw [List.getElem?_map, List.getElem?_map]
  cases hk : s.jobs[k]? with
  | none =>
    have hge := List.getElem?_eq_none_iff.mp hk
    rw [List.getElem?_eq_none (by simpa [← hlength] using hge)]
    rfl
  | some job =>
    have hlt := (List.getElem?_eq_some_iff.mp hk).1
    rw [List.getElem?_range (hlength ▸ hlt)]
    refine congrArg some ?_
    rcases h.position hk with hpast | ⟨rfl, -, -⟩
    · exact hjob k job (h.past k job hpast hk).toCarries (h.past k job hpast hk).fence
    · exact hjob k job (h.current job hk).toCarries ((h.current job hk).fence hfenced)

/-- The executions of a chain that has come to its end. -/
theorem Chain.executions_of_final (h : c.Chain attempt stage s) (hfinal : stage.Final) :
    (s.executions c.envelope.taskId).map (fun job => job.envelope.attemptNo) =
        List.range' 1 (attempt + 1) ∧
      s.db.attempts.map AttemptRow.ident =
        (s.executions c.envelope.taskId).map (fun job => job.attemptRow.ident) ∧
      ((s.executions c.envelope.taskId).map Job.fence).Pairwise (· < ·) := by
  have hstage : stage.delivered = 1 ∧ stage.fenced = 1 ∧ stage.recorded = 1 ∧
      stage.started = true := by
    cases stage <;> simp [Stage.Final] at hfinal ⊢
  obtain ⟨hdelivered, hfenced, hrecorded, hstarted⟩ := hstage
  have hmap := fun {β : Type} => h.jobs_map (β := β) hdelivered hfenced
  rw [h.executions_eq hstarted]
  refine ⟨?_, ?_, ?_⟩
  · rw [hmap _ (fun k => k + 1) fun k job hcarries _ => by rw [hcarries.envelope]; rfl,
      List.range'_eq_map_range]
    exact List.map_congr_left fun k _ => Nat.add_comm k 1
  · rw [h.tables.attempts, hrecorded, hmap _ c.ident fun k job hcarries hfence => ?_]
    simp only [AttemptRow.ident, Job.attemptRow, RetryChain.ident, hfence, hcarries.envelope]
    rfl
  · rw [hmap _ (fun k => c.fenceSeq + k + 1) fun k job _ hfence => hfence, List.pairwise_map]
    exact List.pairwise_lt_range.imp fun hlt => by omega

/-- A token that has finished leaves no message. -/
theorem Chain.no_message {success : Bool} (h : c.Chain attempt (.finished success) s)
    (hended : ∀ job ∈ s.jobs, job.pc = .ended) :
    (s.redis.queues c.queue).delivered = (s.redis.queues c.queue).stream.length ∧
      (s.redis.queues c.queue).pending = [] ∧ (s.redis.queues c.queue).sched = [] := by
  refine ⟨?_, List.eq_nil_iff_forall_not_mem.mpr fun p hp => ?_,
    List.map_eq_nil_iff.mp h.queue.sched⟩
  · rw [h.queue.delivered, h.queue.stream]
    simp
  · obtain ⟨job, hjob, hunfinished⟩ := h.pending p hp
    exact hunfinished.resolve_right (by simp) (hended job (List.mem_of_getElem? hjob))

/-- A chain that ends with a success is exact. -/
theorem Chain.exact_of_success (h : c.Chain attempt (.finished true) s)
    (hended : ∀ job ∈ s.jobs, job.pc = .ended) : c.Exact s := by
  have hfirst : c.firstSuccess = (attempt + 1 : ℕ) :=
    firstSuccess_eq (by omega) (fun j hpos hlt => h.failed j hpos (by omega)) h.agrees
  have hle : c.firstSuccess ≤ c.limit := by
    rw [hfirst]
    exact_mod_cast h.room.1
  obtain ⟨hnumbers, hrecorded, hfences⟩ := h.executions_of_final trivial
  obtain ⟨hundelivered, hunacked, hunscheduled⟩ := h.no_message hended
  refine ⟨⟨attempt + 1, ?_, hnumbers, hrecorded⟩, hfences, fun _ => ⟨?_, h.tables.effects, ?_⟩,
    fun hlt => absurd hle (not_le.mpr hlt), hundelivered, hunacked, hunscheduled⟩
  · rw [min_eq_left hle, hfirst]
  · obtain ⟨row, hrow, -, hstate, -⟩ := h.tables.task
    rw [hrow, List.map_singleton, hstate rfl]
  · exact List.map_eq_nil_iff.mp h.queue.dlq

/-- A chain that ends at the limit is exact. -/
theorem Chain.exact_of_dead (h : c.Chain attempt (.finished false) s)
    (hended : ∀ job ∈ s.jobs, job.pc = .ended) : c.Exact s := by
  obtain ⟨hfailure, hlimit⟩ := h.agrees
  have hlast : c.limit = attempt + 1 := by
    have hroom := h.room.1
    omega
  have hlt : (c.limit : ℕ∞) < c.firstSuccess := by
    rw [hlast]
    exact lt_firstSuccess (h.failed_succ hfailure)
  obtain ⟨hnumbers, hrecorded, hfences⟩ := h.executions_of_final trivial
  obtain ⟨hundelivered, hunacked, hunscheduled⟩ := h.no_message hended
  refine ⟨⟨attempt + 1, ?_, hnumbers, hrecorded⟩, hfences,
    fun hle => absurd hlt (not_lt.mpr hle), fun _ => ⟨?_, ?_, ?_⟩, hundelivered, hunacked,
    hunscheduled⟩
  · rw [min_eq_right hlt.le, hlast]
  · obtain ⟨row, hrow, -, -, hstate⟩ := h.tables.task
    rw [hrow, List.map_singleton, hstate rfl]
  · exact List.map_eq_nil_iff.mp h.tables.effects
  · have hdlq := congrArg (List.map TaskEnvelope.taskId) h.queue.dlq
    simpa [numbered] using hdlq

/-- A chain that has dropped its entry has run too few executions. -/
theorem Chain.not_exact_of_stuck (h : c.Chain attempt .stuck s) :
    1025 < c.limit ∧ (1025 : ℕ∞) < c.firstSuccess ∧ ¬ c.Exact s := by
  obtain ⟨hfailure, hlimit, rfl⟩ := h.agrees
  have hlate : (1025 : ℕ∞) < c.firstSuccess :=
    mod_cast lt_firstSuccess (m := 1025) (h.failed_succ hfailure)
  refine ⟨hlimit, hlate, fun hexact => ?_⟩
  -- 1025 executions have run, fewer than the smaller of the limit and the first success
  obtain ⟨m, hm, hnumbers, -⟩ := hexact.executions
  obtain ⟨hnumbers', -⟩ := h.executions_of_final trivial
  have hlength := congrArg List.length (hnumbers.symm.trans hnumbers')
  rw [List.length_range', List.length_range'] at hlength
  subst hlength
  have hlt : (1025 : ℕ∞) < min c.firstSuccess c.limit :=
    lt_min hlate (by exact_mod_cast hlimit)
  rw [← hm] at hlt
  exact absurd hlt (by exact_mod_cast lt_irrefl 1025)

/-- Where more than 1025 executions fail and more are allowed, the chain comes to rest with its
entry dropped. -/
theorem exists_inexact {s₀ : Sys} (hstart : c.Starts s₀) (hlimit : 1025 < c.limit)
    (hlate : (1025 : ℕ∞) < c.firstSuccess) :
    ∃ s, Transition.ReachesWhen Sys.step c.Allows s₀ s ∧ c.AtRest s ∧
      c.Chain 1024 .stuck s := by
  obtain ⟨s, hrun, ⟨attempt, stage, hchain⟩, hrest⟩ :=
    exists_atRest ⟨0, .undelivered, hstart.chain⟩
  refine ⟨s, hrun, hrest, ?_⟩
  obtain ⟨hfinal, -⟩ := hchain.final_of_atRest hrest
  have hroom := hchain.room.2
  cases stage with
  | undelivered | scheduled | working => exact hfinal.elim
  | finished success =>
    cases success with
    | true =>
      -- the first success would be among the first 1025 executions
      have hfirst : c.firstSuccess = (attempt + 1 : ℕ) := firstSuccess_eq (by omega)
        (fun j hpos hlt => hchain.failed j hpos (by omega)) hchain.agrees
      rw [hfirst] at hlate
      have hlt : 1025 < attempt + 1 := by exact_mod_cast hlate
      omega
    | false =>
      have hend := hchain.agrees.2
      omega
  | stuck =>
    obtain rfl := hchain.agrees.2.2
    exact hchain

/-- **The retry chain.** Every run of the chain comes to rest: a state of rest can be reached from
each of its states, and each step leaves less to do, unless it renews a lease or changes nothing.
And every state of rest is exact exactly when at most 1025 executions are allowed or one of the
first 1025 succeeds. -/
theorem retry_chain_exact_iff (c : RetryChain) {s₀ : Sys} (hstart : c.Starts s₀) :
    (∀ s, Transition.ReachesWhen Sys.step c.Allows s₀ s →
      (∃ s', Transition.ReachesWhen Sys.step c.Allows s s' ∧ c.AtRest s') ∧
        ∀ a s', c.Allows s a → s.step a = some s' →
          (∃ i, a = .heartbeat i) ∨ s' = s ∨ c.load s' < c.load s) ∧
    ((∀ s, Transition.ReachesWhen Sys.step c.Allows s₀ s → c.AtRest s → c.Exact s) ↔
      c.limit ≤ 1025 ∨ c.firstSuccess ≤ 1025) := by
  constructor
  · intro s hrun
    obtain ⟨attempt, stage, hchain⟩ := hstart.chain_of_reaches hrun
    obtain ⟨s', hrun', -, hrest⟩ := exists_atRest ⟨attempt, stage, hchain⟩
    exact ⟨⟨s', hrun', hrest⟩, fun a t hallowed hstep => (hchain.step hallowed hstep).2⟩
  constructor
  · intro hexact
    by_contra hcond
    obtain ⟨hlimit, hlate⟩ := not_or.mp hcond
    obtain ⟨s, hrun, hrest, hstuck⟩ := exists_inexact hstart (not_le.mp hlimit) (not_le.mp hlate)
    exact hstuck.not_exact_of_stuck.2.2 (hexact s hrun hrest)
  · intro hcond s hrun hrest
    obtain ⟨attempt, stage, hchain⟩ := hstart.chain_of_reaches hrun
    obtain ⟨hfinal, hended⟩ := hchain.final_of_atRest hrest
    cases stage with
    | undelivered | scheduled | working => exact hfinal.elim
    | finished success =>
      cases success with
      | true => exact hchain.exact_of_success hended
      | false => exact hchain.exact_of_dead hended
    | stuck =>
      obtain ⟨hlimit, hlate, -⟩ := hchain.not_exact_of_stuck
      exact (hcond.elim (not_le.mpr hlimit) (not_le.mpr hlate)).elim

/-- A task without lists of errors whose executions end in the given ways, with a limit. -/
def enqueuedTask (limit : ℕ) (hpos : 1 ≤ limit) (outcomes : ℕ → HandlerOutcome) : RetryChain where
  queue := "q"
  envelope :=
    { taskId := ⟨1⟩
      queue := "q"
      taskName := "t"
      payload := .null
      maxAttempts := limit
      retryPolicy := { maxAttempts := limit }
      createdAt := 0 }
  limit := limit
  outcomes := outcomes
  fenceSeq := 0
  first := rfl
  limit_pos := hpos
  limit_eq := rfl
  plain := ⟨rfl, rfl⟩
  exact_fences := by decide

/-- The request that enqueues it. -/
def request (limit : ℕ) : CreateTaskRequest :=
  { queue := "q", taskName := "t", payload := .null, maxAttempts := limit }

/-- A chain starts where its request has been accepted. -/
theorem exists_starts (limit : ℕ) (hpos : 1 ≤ limit) (outcomes : ℕ → HandlerOutcome)
    (hcheck : (Transition.run Sys.step Sys.init (Sys.accept 0 (request limit) ⟨1⟩)).map (fun s =>
      decide (((s.redis.queues "q").stream = [(enqueuedTask limit hpos outcomes).envelope] ∧
        (s.redis.queues "q").delivered = 0 ∧ (s.redis.queues "q").pending = [] ∧
        (s.redis.queues "q").sched = [] ∧ (s.redis.queues "q").dlq = []) ∧
      (s.redis.leaseStore.fenceSeq = 0 ∧ s.redis.leaseStore.leases (Uuid.str ⟨1⟩) = none) ∧
      (s.jobs = [] ∧ s.requeues.isEmpty = true) ∧
      s.db.tasks.map TaskRow.id = [⟨1⟩] ∧ s.db.attempts = [] ∧ s.db.effects = [])) =
      some true) :
    ∃ s : Sys, s.Reachable ∧ (enqueuedTask limit hpos outcomes).Starts s := by
  obtain ⟨s, hrun, ⟨hstream, hdelivered, hpending, hsched, hdlq⟩, ⟨hseq, hfree⟩,
    ⟨hjobs, hrequeues⟩, htasks, hattempts, heffects⟩ :=
    Transition.exists_run_of_check Sys.step Sys.init _ _ hcheck
  refine ⟨s, .of_run hrun, ⟨?_, hseq, hfree, hjobs, List.isEmpty_iff.mp hrequeues, ?_, hattempts,
    heffects⟩⟩
  · have hfields : s.redis.queues "q" = ⟨(s.redis.queues "q").stream,
        (s.redis.queues "q").delivered, (s.redis.queues "q").pending,
        (s.redis.queues "q").sched, (s.redis.queues "q").dlq⟩ := rfl
    rw [hstream, hdelivered, hpending, hsched, hdlq] at hfields
    exact hfields
  · obtain ⟨row, hrow, hid⟩ := List.map_eq_singleton_iff.mp htasks
    exact ⟨row, hrow, hid⟩

/-- The theorem at a task that fails once and may be tried twice. -/
theorem retry_chain_exact_iff_second : ∃ (c : RetryChain) (s₀ s : Sys), c.limit = 2 ∧
    c.firstSuccess = 2 ∧ s₀.Reachable ∧ c.Starts s₀ ∧
    Transition.ReachesWhen Sys.step c.Allows s₀ s ∧ c.AtRest s ∧ c.Exact s := by
  have hfirst : ∀ hpos, (enqueuedTask 2 hpos fun k =>
      if k = 2 then .returned none else .raised "ValueError" "Traceback").firstSuccess = 2 := by
    intro hpos
    refine firstSuccess_eq (k := 2) (by decide) (fun j _ hlt => ?_) trivial
    simp [enqueuedTask, Nat.ne_of_lt hlt, HandlerOutcome.Success]
  obtain ⟨s₀, hreachable, hstart⟩ := exists_starts 2 (by decide)
    (fun k => if k = 2 then .returned none else .raised "ValueError" "Traceback")
    (by decide +kernel)
  obtain ⟨hrests, hiff⟩ := retry_chain_exact_iff _ hstart
  obtain ⟨⟨s, hrun, hrest⟩, -⟩ := hrests s₀ (.refl s₀)
  exact ⟨_, s₀, s, rfl, hfirst _, hreachable, hstart, hrun, hrest,
    hiff.mpr (Or.inl (by decide)) s hrun hrest⟩

/-- A task that may be tried 1026 times and always fails: after 1025 executions it is left with
neither a retry nor a dead letter. -/
theorem retry_dropped : ∃ (c : RetryChain) (s₀ s : Sys), c.limit = 1026 ∧
    (∀ k, ¬ (c.outcomes k).Success) ∧ s₀.Reachable ∧ c.Starts s₀ ∧
    Transition.ReachesWhen Sys.step c.Allows s₀ s ∧ c.AtRest s ∧
    (s.executions c.envelope.taskId).length = 1025 ∧ (s.redis.queues c.queue).sched = [] ∧
    (s.redis.queues c.queue).dlq = [] ∧ ¬ c.Exact s := by
  obtain ⟨s₀, hreachable, hstart⟩ := exists_starts 1026 (by decide)
    (fun _ => .raised "ValueError" "Traceback") (by decide +kernel)
  have hlate : (1025 : ℕ∞) < (enqueuedTask 1026 (by decide)
      fun _ => .raised "ValueError" "Traceback").firstSuccess :=
    mod_cast lt_firstSuccess (m := 1025) fun _ _ _ => id
  obtain ⟨s, hrun, hrest, hstuck⟩ := exists_inexact hstart (by decide) hlate
  refine ⟨_, s₀, s, rfl, fun _ => id, hreachable, hstart, hrun, hrest, ?_,
    List.map_eq_nil_iff.mp hstuck.queue.sched, List.map_eq_nil_iff.mp hstuck.queue.dlq,
    hstuck.not_exact_of_stuck.2.2⟩
  exact hstuck.length_executions rfl rfl

end RetryChain

end Dtq
