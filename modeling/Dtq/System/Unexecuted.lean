import Dtq.System.Intake

/-!
# Tasks that were never executed

A task's row is pending or scheduled until an execution records its first attempt. Without
requeues it never is again, so a task that can be cancelled was not executed. And as long
as it was not, its message is on its way: the retry is scheduled before the old message is
acknowledged, and a dead letter is acknowledged only after the row was set to dead.

## Main results

* `Sys.attemptedInv_of_reaches` — a task that was ever executed cannot be cancelled any more
* `Sys.queued_of_reaches` — a task that can be cancelled has a message to deliver
-/

set_option autoImplicit false

namespace Dtq

namespace Job

variable {job job' : Job} {stores stores' : Stores} {locks : Locks}

/-- The execution has recorded its attempt, as far as its steps tell. -/
def Late (job : Job) : Prop := job.started = true ∨ job.pc.Recorded ∨ job.pc.Succeeds

theorem Starting.not_late (h : job.Starting) : ¬ job.Late := by
  rcases h.pc with hpc | hpc <;> simp [Late, h.started, hpc, Pc.Recorded, Pc.Succeeds]

theorem Proceeds.late_cases (h : job.Proceeds stores locks stores' job') (hlate : job'.Late) :
    job.Late ∨ ∃ row ∈ stores'.db.attempts, row.taskId = job.envelope.taskId := by
  cases h with
  | recorded hpc =>
    exact Or.inr ⟨job.attemptRow, List.mem_append_right _ (List.mem_singleton.mpr rfl), rfl⟩
  | handlerStarted hpc | foundAbsent _ hpc | foundPresent _ _ hpc | inserted _ hpc
  | committedEffect _ _ hpc | committedNothing _ _ hpc =>
    exact Or.inl (Or.inr (Or.inl (by simp [hpc, Pc.Recorded])))
  | released success errorRepr hpc =>
    refine Or.inl ?_
    cases success <;> simp_all [Late, returns, Pc.Recorded, Pc.Succeeds]
  | _ => exact Or.inl (Or.inl (by simpa [Late, goto, returns, adopted, Pc.Recorded, Pc.Succeeds]
      using hlate))

theorem Moves.late_cases (h : job.Moves stores locks stores' job') (hlate : job'.Late) :
    job.Late ∨ ∃ row ∈ stores'.db.attempts, row.taskId = job.envelope.taskId := by
  cases h with
  | proceeds h => exact h.late_cases hlate
  | raisedAfter h hexc =>
    have hstarted := hlate.resolve_right fun hlate => hlate.elim hexc.not_recorded hexc.not_succeeds
    exact h.late_cases (Or.inl hstarted)
  | failed hactive hexc =>
    exact Or.inl (Or.inl (hlate.resolve_right fun hlate =>
      hlate.elim hexc.not_recorded hexc.not_succeeds))
  | skippedPrior hpc =>
    exact Or.inl (Or.inl (by simpa [Late, adopted, Pc.Recorded, Pc.Succeeds] using hlate))
  | handlerEnded hpc hnext =>
    refine Or.inl (Or.inr (Or.inl ?_))
    rcases hpc with hpc | hpc <;> simp [hpc, Pc.Recorded]

/-- A task comes to its first attempt when a job records it, and with it sets the row to
leased. -/
theorem Moves.attempted_cases (h : job.Moves stores locks stores' job') {taskId : Uuid}
    (hattempted : ∃ row ∈ stores'.db.attempts, row.taskId = taskId) :
    (∃ row ∈ stores.db.attempts, row.taskId = taskId) ∨
      (∃ task ∈ stores.db.tasks, task.id = taskId) ∧ ∃ attempt,
        stores'.db.tasks = stores.db.tasks.map (Db.setState taskId .leased attempt) := by
  obtain ⟨row, hrow, hid⟩ := hattempted
  have hclosed : ∀ {no : ℕ} {outcome : AttemptOutcome} {et er : Option String} {now : ℚ} {db : Db},
      row ∈ (db.closeAttempt job.envelope.taskId no outcome et er now).attempts →
      ∃ row ∈ db.attempts, row.taskId = taskId := by
    intro no outcome et er now db hmem
    obtain ⟨old, hold, rfl⟩ := List.mem_map.mp hmem
    refine ⟨old, hold, ?_⟩
    split at hid <;> exact hid
  obtain rfl | ⟨job'', h⟩ := h.stores_cases
  · exact Or.inl ⟨row, hrow, hid⟩
  · cases h with
    | recorded hpc hlock htask hnew =>
      rcases List.mem_append.mp hrow with hrow | hrow
      · exact Or.inl ⟨row, hrow, hid⟩
      · obtain rfl := List.mem_singleton.mp hrow
        obtain rfl : job.envelope.taskId = taskId := hid
        exact Or.inr ⟨htask, _, rfl⟩
    | closedPrior | committedEffect | committedNothing | closedFailed =>
      exact Or.inl (hclosed hrow)
    | _ => exact Or.inl ⟨row, hrow, hid⟩

/-- A job turns to the acknowledgement after it has scheduled the retry, after it has set the
row to dead, or on its way to success. -/
theorem Moves.acks_cases (h : job.Moves stores locks stores' job') (hacks : job'.pc.Acks) :
    job.pc.Acks ∨ job.Late ∨
      (∃ runAt, stores'.redis =
        stores.redis.modifyQueue job.queue (·.schedule job.envelope.nextAttempt runAt)) ∨
      stores'.db.tasks = stores.db.tasks.map (Db.setState job.envelope.taskId .dead none) := by
  cases h with
  | proceeds h =>
    cases h with
    | released success text hpc =>
      cases success with
      | true => exact Or.inr (Or.inl (Or.inr (Or.inr (by simp [hpc, Pc.Succeeds]))))
      | false => simp [returns, Pc.Acks] at hacks
    | scheduledRetry text runAt hpc => exact Or.inr (Or.inr (Or.inl ⟨runAt, rfl⟩))
    | markedDead hpc => exact Or.inr (Or.inr (Or.inr rfl))
    | _ => simp [returns, goto, adopted, Pc.Acks] at hacks
  | raisedAfter h hexc | failed hactive hexc => exact absurd hacks.finishing hexc.not_finishing
  | skippedPrior hpc => simp [adopted, Pc.Acks] at hacks
  | handlerEnded hpc hnext =>
    obtain ⟨r, rfl⟩ | ⟨type, text, rfl⟩ := hnext <;> simp [goto, Pc.Acks] at hacks

end Job

namespace QueueState

variable {q q' : QueueState} {e e' : TaskEnvelope}

/-- The queue has a message to hand out for the task of `e`: an undelivered entry, or a
member of the schedule. -/
def Waits (q : QueueState) (e : TaskEnvelope) : Prop :=
  (∃ k e', q.delivered ≤ k ∧ q.stream[k]? = some e' ∧ e.SameTask e') ∨
    ∃ m ∈ q.sched, e.SameTask m.1

/-- The dead letters aside, this is what a queue keeps. -/
theorem waits_iff_keeps : q.Waits e ↔ ({ q with dlq := [] } : QueueState).Keeps e := by
  simp [Waits, Keeps]

theorem Added.without_dlq (h : q.Added e q') :
    ({ q with dlq := [] } : QueueState).Added e { q' with dlq := [] } := by
  cases h with
  | published => exact .published
  | scheduled runAt => exact .scheduled runAt

theorem Added.waits (h : q.Added e' q') (hwaits : q.Waits e) : q'.Waits e :=
  waits_iff_keeps.mpr (h.without_dlq.keeps (waits_iff_keeps.mp hwaits))

theorem Added.waits_self (h : q.Added e' q') (hsame : e.SameTask e')
    (hdelivered : q.delivered ≤ q.stream.length) : q'.Waits e :=
  waits_iff_keeps.mpr (h.without_dlq.keeps_self hsame hdelivered)

theorem Waits.promoteScheduled {now : ℚ} (h : q.Waits e)
    (hdelivered : q.delivered ≤ q.stream.length) : (q.promoteScheduled now).Waits e := by
  have hkeeps : (({ q with dlq := [] } : QueueState).promoteScheduled now).Keeps e :=
    (waits_iff_keeps.mp h).promoteScheduled hdelivered
  rw [promoteScheduled_eq] at hkeeps ⊢
  exact waits_iff_keeps.mpr hkeeps

end QueueState

namespace Sys

variable {s s' : Sys} {a : Action} {taskId : Uuid}

/-! ### A task that was executed cannot be cancelled -/

/-- The task can be cancelled: its row is pending or scheduled. -/
def Cancellable (s : Sys) (taskId : Uuid) : Prop :=
  ∃ row ∈ s.db.tasks, row.id = taskId ∧ (row.state = .pending ∨ row.state = .scheduled)

/-- Some attempt of the task is on record. -/
def Attempted (s : Sys) (taskId : Uuid) : Prop := ∃ row ∈ s.db.attempts, row.taskId = taskId

/-- A task that was executed has a row, and the row is neither pending nor scheduled. -/
structure AttemptedInv (s : Sys) : Prop where
  rows : ∀ taskId, s.Attempted taskId → s.HasTask taskId ∧ ¬ s.Cancellable taskId
  jobs : ∀ job ∈ s.jobs, job.Late → s.Attempted job.envelope.taskId
  effects : ∀ row ∈ s.db.effects, s.Attempted row.taskId

/-- A write of another state to a row, or to another row, makes no task cancellable. -/
theorem cancellable_of_setState {rows : List TaskRow} {id : Uuid} {state : TaskState}
    {attempt : Option ℕ} (hstate : ¬ (state = .pending ∨ state = .scheduled))
    (h : ∃ row ∈ rows.map (Db.setState id state attempt), row.id = taskId ∧
      (row.state = .pending ∨ row.state = .scheduled)) :
    id ≠ taskId ∧ ∃ row ∈ rows, row.id = taskId ∧
      (row.state = .pending ∨ row.state = .scheduled) := by
  obtain ⟨row, hrow, hid, hrowState⟩ := h
  obtain ⟨old, hold, rfl⟩ := List.mem_map.mp hrow
  rw [Db.setState_id] at hid
  by_cases hsame : old.id = id
  · rw [Db.setState, if_pos hsame] at hrowState
    exact absurd hrowState hstate
  · rw [Db.setState, if_neg hsame] at hrowState
    exact ⟨fun heq => hsame (hid.trans heq.symm), old, hold, hid, hrowState⟩

/-- In a step without requeues, a task becomes cancellable only when its row is inserted. -/
theorem Moves.cancellable_cases (h : s.Moves a s') (hrequeues : s.requeues = [])
    (hcancellable : s'.Cancellable taskId) :
    s.Cancellable taskId ∨ ∃ post ∈ s.posts, post.pc = .commit ∧ post.taskId = taskId := by
  cases h with
  | @job _ i job job' stores' ha hjob hmove =>
    left
    obtain ⟨result, -, -, hmap⟩ | ⟨-, hsame | ⟨-, hmap⟩ | ⟨-, hmap⟩⟩ := hmove.tasks_cases
    case inr.inl =>
      rw [Cancellable, setJob_db, hsame] at hcancellable
      exact hcancellable
    all_goals
      rw [Cancellable, setJob_db, hmap] at hcancellable
      exact (cancellable_of_setState (by simp) hcancellable).2
  | post ha hpost hmove =>
    rcases hmove.db_cases with hdb | ⟨hpc, hdb⟩
    · rw [Cancellable, setPost_db, hdb] at hcancellable
      exact Or.inl hcancellable
    · rw [Cancellable, setPost_db, hdb] at hcancellable
      obtain ⟨row, hrow, hid, hstate⟩ := hcancellable
      rcases List.mem_append.mp hrow with hrow | hrow
      · exact Or.inl ⟨row, hrow, hid, hstate⟩
      · obtain rfl := List.mem_singleton.mp hrow
        exact Or.inr ⟨_, List.mem_of_getElem? hpost, hpc, hid⟩
  | requeue ha hrequeue => simp [hrequeues] at hrequeue
  | cancelled =>
    left
    obtain ⟨row, hrow, hid, hstate⟩ := hcancellable
    obtain ⟨old, hold, rfl⟩ := List.mem_map.mp hrow
    split_ifs at hid hstate
    · simp at hstate
    · exact ⟨old, hold, hid, hstate⟩
  | delivered | adopted | posted | produced | requeued | leases | promoted =>
    exact Or.inl hcancellable

theorem Attempted.step (h : s.Attempted taskId) (hmoves : s.Moves a s') :
    s'.Attempted taskId := by
  obtain ⟨row, hrow, hid⟩ := h
  have hident : row.ident ∈ s'.db.attempts.map AttemptRow.ident := by
    have hmem := List.mem_map_of_mem (f := AttemptRow.ident) hrow
    rcases hmoves.worker_cases with
      ⟨i, job, job', stores', -, -, hmove, rfl⟩ | ⟨job, -, -, hdb, -⟩ | ⟨-, -, hattempts, -⟩
    · exact hmove.ident_kept _ hmem
    · rwa [hdb]
    · rwa [hattempts]
  obtain ⟨row', hrow', hsame⟩ := List.mem_map.mp hident
  exact ⟨row', hrow', (congrArg Prod.fst hsame).trans hid⟩

theorem AttemptedInv.rows_step (h : s.AttemptedInv) (hbooks : s.EnqueueInv)
    (hrequeues : s.requeues = []) (hmoves : s.Moves a s') :
    ∀ taskId, s'.Attempted taskId → s'.HasTask taskId ∧ ¬ s'.Cancellable taskId := by
  intro taskId hattempted
  -- an attempt that was on record already
  have hold : s.Attempted taskId → s'.HasTask taskId ∧ ¬ s'.Cancellable taskId := by
    intro hbefore
    obtain ⟨htask, hnot⟩ := h.rows taskId hbefore
    refine ⟨hmoves.hasTask htask, fun hcancellable => ?_⟩
    rcases hmoves.cancellable_cases hrequeues hcancellable with
      hcancellable | ⟨post, hpost, hpc, hid⟩
    · exact hnot hcancellable
    · obtain ⟨row, hrow, hrowId⟩ := htask
      exact hbooks.uncommitted post hpost (by simp [Post.Uncommitted, hpc]) row hrow
        (hrowId.trans hid.symm)
  rcases hmoves.worker_cases with
    ⟨i, job, job', stores', -, -, hmove, rfl⟩ | ⟨job, -, -, hdb, -⟩ | ⟨-, -, hattempts, -⟩
  · rcases hmove.attempted_cases hattempted with hbefore | ⟨htask, attempt, hmap⟩
    · exact hold hbefore
    · refine ⟨hmoves.hasTask htask, fun hcancellable => ?_⟩
      rw [Cancellable, setJob_db, hmap] at hcancellable
      exact (cancellable_of_setState (by simp) hcancellable).1 rfl
  · exact hold (by rwa [Attempted, hdb] at hattempted)
  · exact hold (by rwa [Attempted, hattempts] at hattempted)

theorem AttemptedInv.step (h : s.AttemptedInv) (hbooks : s.EnqueueInv)
    (hrequeues : s.requeues = []) (hmoves : s.Moves a s') : s'.AttemptedInv := by
  refine ⟨h.rows_step hbooks hrequeues hmoves, ?_, ?_⟩
  · have hold : ∀ job ∈ s.jobs, job.Late → s'.Attempted job.envelope.taskId :=
      fun job hjob hlate => (h.jobs job hjob hlate).step hmoves
    rcases hmoves.worker_cases with
      ⟨i, job, job', stores', -, hjob, hmove, rfl⟩ | ⟨job, hnew, hjobs, -⟩ | ⟨hjobs, -⟩
    · apply Indexed.forall_mem_set hold
      intro hlate
      rw [hmove.taskId_eq]
      rcases hmove.late_cases hlate with hbefore | hrecorded
      · exact hold job (List.mem_of_getElem? hjob) hbefore
      · exact hrecorded
    · rw [hjobs]
      apply Indexed.forall_mem_append_singleton hold
      exact fun hlate => absurd hlate hnew.not_late
    · rwa [hjobs]
  · intro row hrow
    rcases hmoves.worker_cases with
      ⟨i, job, job', stores', -, hjob, hmove, rfl⟩ | ⟨job, -, -, hdb, -⟩ | ⟨-, heffects, -⟩
    · rcases hmove.mem_effects_cases hrow with hbefore | ⟨result, hpc, -, rfl⟩
      · exact (h.effects row hbefore).step hmoves
      · -- whoever commits an effect has recorded an attempt
        have hlate : job.Late := Or.inr (Or.inl (by simp [hpc, Pc.Recorded]))
        exact (h.jobs job (List.mem_of_getElem? hjob) hlate).step hmoves
    · exact (h.effects row (hdb ▸ hrow)).step hmoves
    · exact (h.effects row (heffects ▸ hrow)).step hmoves

/-- In runs without requeues, a task that was executed cannot be cancelled any more. -/
theorem attemptedInv_of_reaches (h : Transition.ReachesWhen step WithoutRequeue init s) :
    s.AttemptedInv := by
  apply h.invariant_along (I := AttemptedInv)
  · exact ⟨by simp [Attempted, init, Db.empty], by simp [init], by simp [init, Db.empty]⟩
  · intro u b v hrun hinv _ hstep
    have hreach : u.Reachable := hrun.reaches
    exact hinv.step hreach.enqueueInv (custodyInv_of_reaches hrun).requeues (moves_of_step hstep)

/-! ### A task that can be cancelled has a message -/

/-- A message of the task of `e` is on its way: undelivered, scheduled, or delivered to
somebody who is not about to acknowledge it. -/
def Queued (s : Sys) (queue : String) (e : TaskEnvelope) : Prop :=
  (s.redis.queues queue).Waits e ∨
    ∃ p ∈ (s.redis.queues queue).pending,
      (∃ e', (s.redis.queues queue).stream[p.id]? = some e' ∧ e.SameTask e') ∧
        ∀ job ∈ s.jobs, job.queue = queue → job.msgId = p.id → ¬ job.pc.Acks

theorem Pends.queued {queue : String} {e : TaskEnvelope} (h : s.Pends queue e) :
    s.Queued queue e := by
  obtain ⟨p, hp, hentry, hquiet⟩ := h
  exact Or.inr ⟨p, hp, hentry, fun job hjob hqueue hmsg hacks =>
    hquiet job hjob hqueue hmsg hacks.finishing⟩

/-- What waits on a queue waits until it is delivered. -/
theorem CustodyInv.waits_step (hinv : s.CustodyInv) (h : s.Moves a s') {queue : String}
    {e : TaskEnvelope} (hwaits : (s.redis.queues queue).Waits e) : s'.Queued queue e := by
  have hmoves := h.queue_cases queue
  generalize hq' : s'.redis.queues queue = q' at hmoves
  cases hmoves with
  | same | adopted | acked | deadLettered => exact Or.inl (by rw [hq']; exact hwaits)
  | enqueued hadded => exact Or.inl (by rw [hq']; exact hadded.waits hwaits)
  | requeued => exact Or.inl (by rw [hq']; exact QueueState.Added.published.waits hwaits)
  | retried => exact Or.inl (by rw [hq']; exact (QueueState.Added.scheduled _).waits hwaits)
  | promoted =>
    exact Or.inl (by rw [hq']; exact hwaits.promoteScheduled (hinv.delivered queue))
  | @delivered workerId job hjob hjobs hmsg hentry =>
    rcases hwaits with ⟨k, x, hk, hx, hsame⟩ | hsched
    · rcases Nat.eq_or_lt_of_le hk with rfl | hlt
      · exact (hinv.handed_out hjob hjobs hq' hx hsame).queued
      · exact Or.inl (by rw [hq']; exact Or.inl ⟨k, x, hlt, hx, hsame⟩)
    · exact Or.inl (by rw [hq']; exact Or.inr hsched)

/-- A delivered message of a task that can be cancelled is not acknowledged before the next
one is there. -/
theorem CustodyInv.pending_queued (hinv : s.CustodyInv) (hattempted : s'.AttemptedInv)
    (hlate : s.AttemptedInv) (h : s.Moves a s') {queue : String} {e : TaskEnvelope} {p : Pending}
    (hp : p ∈ (s.redis.queues queue).pending)
    (hentry : ∃ e', (s.redis.queues queue).stream[p.id]? = some e' ∧ e.SameTask e')
    (hquiet : ∀ job ∈ s.jobs, job.queue = queue → job.msgId = p.id → ¬ job.pc.Acks)
    (hcancellable : s'.Cancellable e.taskId) : s'.Queued queue e := by
  obtain ⟨x, hx, hsame⟩ := hentry
  obtain ⟨p', hp', hid⟩ := h.pending_step hp hquiet
  have hx' : (s'.redis.queues queue).stream[p'.id]? = some x :=
    hid ▸ Indexed.getElem?_of_grow (h.stream_grow queue).1 hx
  by_cases hstill : ∀ job ∈ s'.jobs, job.queue = queue → job.msgId = p'.id → ¬ job.pc.Acks
  · exact Or.inr ⟨p', hp', ⟨x, hx', hsame⟩, hstill⟩
  have hold : ∀ job ∈ s.jobs, job.queue = queue → job.msgId = p'.id → ¬ job.pc.Acks :=
    fun job hjob hqueue hmsg => hquiet job hjob hqueue (hmsg.trans hid)
  rcases h.worker_cases with
    ⟨i, job, job', stores', -, hjob, hmove, rfl⟩ | ⟨job, hnew, hjobs, -⟩ | ⟨hjobs, -⟩
  · have hmem := List.mem_of_getElem? hjob
    obtain ⟨-, hqueueEq, hmsgEq⟩ := hmove.frame
    -- the job that has moved now turns to the acknowledgement
    obtain ⟨hqueue, hmsg, hacks⟩ : job.queue = queue ∧ job.msgId = p.id ∧ job'.pc.Acks := by
      by_contra hnot
      apply hstill
      apply Indexed.forall_mem_set hold
      intro hqueue hmsg hacks
      exact hnot ⟨hqueueEq.symm.trans hqueue, hmsgEq.symm.trans (hmsg.trans hid), hacks⟩
    have hsameJob : e.SameTask job.envelope := by
      obtain ⟨-, y, hy, hyjob⟩ := hinv.jobs job hmem
      rw [hqueue, hmsg, hx] at hy
      obtain rfl := Option.some.inj hy
      exact hsame.trans hyjob
    rcases hmove.acks_cases hacks with hbefore | hbefore | ⟨runAt, hredis⟩ | hdead
    · exact absurd hbefore (hquiet job hmem hqueue hmsg)
    · -- the task was executed, so it cannot be cancelled
      have hdone := (hlate.jobs job hmem hbefore).step h
      rw [← hsameJob.taskId_eq] at hdone
      exact absurd hcancellable (hattempted.rows _ hdone).2
    · left
      rw [setJob_redis, hredis, hqueue, Redis.modifyQueue_self]
      exact (QueueState.Added.scheduled runAt).waits_self
        (hsameJob.trans (TaskEnvelope.sameTask_nextAttempt _)) (hinv.delivered queue)
    · rw [Cancellable, setJob_db, hdead] at hcancellable
      exact absurd hsameJob.taskId_eq.symm (cancellable_of_setState (by simp) hcancellable).1
  · refine absurd ?_ hstill
    rw [hjobs]
    apply Indexed.forall_mem_append_singleton hold
    exact fun _ _ hacks => hnew.not_finishing hacks.finishing
  · exact absurd (hjobs ▸ hold) hstill

/-- In runs without requeues, a task that was handed to the broker and can be cancelled has a
message on its way. -/
theorem queued_of_reaches (h : Transition.ReachesWhen step WithoutRequeue init s) :
    ∀ queue e, (queue, e) ∈ s.enqueued → s.Cancellable e.taskId → s.Queued queue e := by
  apply h.invariant_along (I := fun s : Sys => ∀ queue e, (queue, e) ∈ s.enqueued →
    s.Cancellable e.taskId → s.Queued queue e) (by simp [init])
  intro u b v hrun hinv hb hstep queue e he hcancellable
  have hreach : u.Reachable := hrun.reaches
  have hbooks := hreach.enqueueInv
  have hcustody := custodyInv_of_reaches hrun
  have hmoves := moves_of_step hstep
  rcases hmoves.enqueued_cases he with hold | hadded
  · have hbefore : u.Cancellable e.taskId := by
      rcases hmoves.cancellable_cases hcustody.requeues hcancellable with
        hbefore | ⟨post, hpost, hpc, hid⟩
      · exact hbefore
      · -- a request that is about to commit has sent nothing
        exact absurd hid.symm (hbooks.unsent post hpost (by simp [Post.Ended, hpc]) _ hold)
    rcases hinv queue e hold hbefore with hwaits | ⟨p, hp, hentry, hquiet⟩
    · exact hcustody.waits_step hmoves hwaits
    · exact hcustody.pending_queued (attemptedInv_of_reaches (hrun.tail hb hstep))
        (attemptedInv_of_reaches hrun) hmoves hp hentry hquiet hcancellable
  · exact Or.inl (hadded.waits_self (.refl e) (hcustody.delivered queue))

end Sys

end Dtq
