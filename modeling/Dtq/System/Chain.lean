import Mathlib.Data.ENat.Lattice
import Dtq.System.Closing
import Dtq.System.Executions

/-!
# The chain of retries

One envelope is on a queue, with a policy that lists no errors. Each delivery runs the handler
once; a failure schedules the envelope again with its attempt incremented, until the limit is
reached and it is dead-lettered. The count is spread over four places: the attempt in the
envelope starts at zero, attempts are recorded from one on, the decision is asked about the
number of attempts made, and a delay exists up to attempt 1024 only.

The invariant follows the one token of the chain: the undelivered entry, the job that works on
it, or the scheduled retry. The jobs before it have recorded and run their attempts and have at
most their acknowledgement left. This file has the chain, its invariant, and the calls of the job
that works on the token.

## Main results

* `RetryChain.Starts.chain` — the invariant holds at the start
* `RetryChain.Chain.goes_working` — a call of the token's job keeps it, and leaves less to do
-/

set_option autoImplicit false

namespace Dtq

/-- The handler returns. -/
def HandlerOutcome.Success : HandlerOutcome → Prop
  | .returned _ => True
  | _ => False

instance : DecidablePred HandlerOutcome.Success
  | .returned _ => isTrue trivial
  | .timedOut _ | .fenceRejected _ | .raised _ _ => isFalse id

/-- An envelope on a queue, and how its executions will end, the first one under the number
one. The fence counter is where it is when the chain starts, which is zero when nothing else
has used it. -/
structure RetryChain where
  queue : String
  envelope : TaskEnvelope
  limit : ℕ
  outcomes : ℕ → HandlerOutcome
  fenceSeq : ℕ
  first : envelope.attempt = 0
  limit_pos : 1 ≤ limit
  limit_eq : envelope.retryPolicy.maxAttempts = limit
  plain : envelope.retryPolicy.retryableErrors = [] ∧ envelope.retryPolicy.terminalErrors = []
  exact_fences : fenceSeq + 1025 < 10 ^ 14

namespace RetryChain

variable (c : RetryChain)

/-- The envelope after a number of attempts. -/
def numbered (attempt : ℕ) : TaskEnvelope := { c.envelope with attempt := attempt }

/-- The row of `attempts` of the execution that starts after a number of attempts. -/
def ident (attempt : ℕ) : Uuid × ℕ × ℕ :=
  (c.envelope.taskId, attempt + 1, c.fenceSeq + attempt + 1)

/-- The name of the task's lease. -/
def taskText : String := c.envelope.taskId.str

open Classical in
/-- The number of the first execution that succeeds, infinite if there is none. -/
noncomputable def firstSuccess : ℕ∞ :=
  if h : ∃ k, 1 ≤ k ∧ (c.outcomes k).Success then (Nat.find h : ℕ) else ⊤

/-- The envelope is on the queue, its task has a row, and nothing has happened yet. -/
structure Starts (s : Sys) : Prop where
  queue : s.redis.queues c.queue = { stream := [c.envelope] }
  fenceSeq : s.redis.leaseStore.fenceSeq = c.fenceSeq
  free : s.redis.leaseStore.leases c.taskText = none
  jobs : s.jobs = []
  requeues : s.requeues = []
  task : ∃ row, s.db.tasks = [row] ∧ row.id = c.envelope.taskId
  attempts : s.db.attempts = []
  effects : s.db.effects = []

/-- What happens in the run: the queue's entries are delivered to any workers, their calls
return, the handlers end as they are to end and leases are renewed meanwhile, and the scheduler
promotes what is due. The one exception is the one that `compute_delay` raises. -/
def Allows (s : Sys) : Action → Prop
  | .deliver _ _ queue => queue = c.queue
  | .jobStep _ (.ok _ _) => True
  | .jobStep i (.raise _ _ _ _) => ∃ job ∈ s.jobs[i]?, ∃ text, job.pc = .returned false text ∧
      job.retries text = true ∧ job.delayOverflows
  | .handler i outcome => (∃ job ∈ s.jobs[i]?, job.pc = .execute .handlerRunning) ∧
      outcome = c.outcomes (s.executions c.envelope.taskId).length
  | .heartbeat _ => True
  | .promote queue _ => queue = c.queue
  | _ => False

/-- Nothing that may happen changes anything. -/
def AtRest (s : Sys) : Prop := ∀ a s', c.Allows s a → s.step a = some s' → s' = s

/-- What the chain should have come to: the handler has run until its first success or the
limit, once under each number and with increasing fences; the task has succeeded with one
effect, or it is dead with one dead letter; and no message is left. -/
structure Exact (s : Sys) : Prop where
  executions : ∃ m : ℕ, (m : ℕ∞) = min c.firstSuccess c.limit ∧
    (s.executions c.envelope.taskId).map (fun job => job.envelope.attemptNo) = List.range' 1 m ∧
    s.db.attempts.map AttemptRow.ident =
      (s.executions c.envelope.taskId).map fun job => job.attemptRow.ident
  fences : ((s.executions c.envelope.taskId).map Job.fence).Pairwise (· < ·)
  succeeded : c.firstSuccess ≤ c.limit → s.db.tasks.map TaskRow.state = [.succeeded] ∧
    s.db.effects.map EffectRow.dedupKey = [c.envelope.effectKey] ∧
    (s.redis.queues c.queue).dlq = []
  dead : c.limit < c.firstSuccess → s.db.tasks.map TaskRow.state = [.dead] ∧
    s.db.effects = [] ∧ (s.redis.queues c.queue).dlq.map (fun d => d.1.taskId) =
      [c.envelope.taskId]
  undelivered : (s.redis.queues c.queue).delivered = (s.redis.queues c.queue).stream.length
  unacked : (s.redis.queues c.queue).pending = []
  unscheduled : (s.redis.queues c.queue).sched = []

/-! ### Where the token is -/

/-- The token of the chain: an entry that is not delivered, a scheduled retry, a job at some
call, a job that is done with its entry, or one that has dropped it. -/
inductive Stage
  | undelivered
  | scheduled
  | working (pc : Pc)
  | finished (success : Bool)
  | stuck

namespace Stage

/-- The attempt of the token is already on the stream. -/
def onStream : Stage → ℕ
  | .scheduled => 0
  | _ => 1

/-- The job of the token, if there is one, is at this call. -/
def pc : Stage → Pc
  | .working pc => pc
  | _ => .ended

/-- There is a job for the token. -/
def delivered : Stage → ℕ
  | .undelivered | .scheduled => 0
  | _ => 1

/-- The job has acquired its fence. -/
def fenced : Stage → ℕ
  | .undelivered | .scheduled | .working (.execute .acquireLease) => 0
  | _ => 1

/-- The job holds the lease. -/
def holds : Stage → Bool
  | .working (.execute .acquireLease) => false
  | .working (.execute _) => true
  | _ => false

/-- The attempt is on record. -/
def recorded : Stage → ℕ
  | .undelivered | .scheduled | .working (.execute .acquireLease)
  | .working (.execute .recordAttempt) => 0
  | _ => 1

/-- The handler has been started. -/
def started : Stage → Bool
  | .undelivered | .scheduled | .working (.execute .acquireLease)
  | .working (.execute .recordAttempt) | .working (.execute .startHandler) => false
  | _ => true

/-- The effect is committed. -/
def committed : Stage → Bool
  | .working (.execute (.releaseLease true _)) | .working (.returned true _)
  | .finished true => true
  | _ => false

/-- The dead letter is filed. -/
def filed : Stage → Bool
  | .working .markDead | .working .ack | .finished false => true
  | _ => false

/-- The task is marked dead. -/
def dead : Stage → Bool
  | .working .ack | .finished false => true
  | _ => false

attribute [simp] onStream pc delivered fenced holds recorded started committed filed dead

end Stage

/-- What the stage says about the execution after `attempt` attempts. -/
def Agrees (attempt : ℕ) : Stage → Prop
  | .undelivered | .scheduled | .working (.execute .acquireLease)
  | .working (.execute .recordAttempt) | .working (.execute .startHandler)
  | .working (.execute .handlerRunning) => True
  | .working (.execute (.selectEffect result)) | .working (.execute (.insertEffect result))
  | .working (.execute (.commitSuccess result true)) =>
    c.outcomes (attempt + 1) = .returned result
  | .working (.execute (.releaseLease true _)) | .working (.returned true _) | .finished true =>
    (c.outcomes (attempt + 1)).Success
  | .working (.execute (.closeFailed _ _)) | .working (.execute (.releaseLease false _))
  | .working (.returned false _) => ¬ (c.outcomes (attempt + 1)).Success
  | .working .markDead | .working .ack | .finished false =>
    ¬ (c.outcomes (attempt + 1)).Success ∧ c.limit ≤ attempt + 1
  | .stuck => ¬ (c.outcomes (attempt + 1)).Success ∧ attempt + 1 < c.limit ∧ attempt = 1024
  | .working (.execute (.commitSuccess _ false)) | .working (.execute (.abandon _))
  | .working (.execute (.rollback _)) | .working .closePrior | .working .ended => False

/-! ### The parts of the invariant -/

/-- The job carries the entry of an attempt. -/
structure Carries (attempt : ℕ) (job : Job) : Prop where
  queue : job.queue = c.queue
  msgId : job.msgId = attempt
  envelope : job.envelope = c.numbered attempt

/-- A job before the token has run its attempt and is about to acknowledge or done. -/
structure Past (attempt : ℕ) (job : Job) : Prop extends c.Carries attempt job where
  pc : job.pc = .ack ∨ job.pc = .ended
  started : job.started = true
  fence : job.fence = c.fenceSeq + attempt + 1

/-- The job of the token. -/
structure Current (attempt : ℕ) (stage : Stage) (job : Job) : Prop
    extends c.Carries attempt job where
  pc : job.pc = stage.pc
  started : job.started = stage.started
  fence : stage.fenced = 1 → job.fence = c.fenceSeq + attempt + 1

/-- The keys of the queue, apart from the pending list. -/
structure OnQueue (attempt onStream delivered : ℕ) (filed : Bool) (q : QueueState) : Prop where
  stream : q.stream = (List.range (attempt + onStream)).map c.numbered
  delivered : q.delivered = attempt + delivered
  sched : q.sched.map Prod.fst = if onStream = 0 then [c.numbered attempt] else []
  dlq : q.dlq.map Prod.fst = if filed then [c.numbered attempt] else []

/-- The tables. -/
structure OnTables (recorded : ℕ) (committed dead : Bool) (db : Db) : Prop where
  task : ∃ row, db.tasks = [row] ∧ row.id = c.envelope.taskId ∧
    (committed = true → row.state = .succeeded) ∧ (dead = true → row.state = .dead)
  attempts : db.attempts.map AttemptRow.ident = (List.range recorded).map c.ident
  effects : db.effects.map EffectRow.dedupKey = if committed then [c.envelope.effectKey] else []

/-- The lease of the task and the fence counter. -/
structure OnLeases (fences : ℕ) (holds : Bool) (job : Option Job) (store : LeaseStore) : Prop where
  fenceSeq : store.fenceSeq = c.fenceSeq + fences
  held : holds = true → ∃ holder ∈ job, holder.Owns store
  free : holds = false → store.leases c.taskText = none

/-- **The invariant.** The token is in a stage of its attempt, the executions before it have
failed, and the stores and the jobs say so. -/
structure Chain (attempt : ℕ) (stage : Stage) (s : Sys) : Prop where
  failed : ∀ k, 1 ≤ k → k ≤ attempt → ¬ (c.outcomes k).Success
  room : attempt < c.limit ∧ attempt ≤ 1024
  agrees : c.Agrees attempt stage
  length : s.jobs.length = attempt + stage.delivered
  past : ∀ k job, k < attempt → s.jobs[k]? = some job → c.Past k job
  current : ∀ job, s.jobs[attempt]? = some job → c.Current attempt stage job
  queue : c.OnQueue attempt stage.onStream stage.delivered stage.filed
    (s.redis.queues c.queue)
  pending : ∀ p ∈ (s.redis.queues c.queue).pending, ∃ job, s.jobs[p.id]? = some job ∧
    (job.pc ≠ .ended ∨ stage = .stuck ∧ p.id = attempt)
  tables : c.OnTables (attempt + stage.recorded) stage.committed stage.dead s.db
  leases : c.OnLeases (attempt + stage.fenced) stage.holds s.jobs[attempt]? s.redis.leaseStore
  requeues : s.requeues = []

variable {c} {s : Sys} {attempt : ℕ} {stage stage' : Stage} {job job' : Job} {stores' : Stores}

/-- The chain starts with its first attempt undelivered. -/
theorem Starts.chain (h : c.Starts s) : c.Chain 0 .undelivered s where
  failed k hpos hle := by omega
  room := ⟨c.limit_pos, by omega⟩
  agrees := trivial
  length := by simp [h.jobs, Stage.delivered]
  past k job hlt := by omega
  current job hjob := by simp [h.jobs] at hjob
  queue := by
    have hfirst : c.numbered 0 = c.envelope := by
      rw [numbered, ← c.first]
    constructor <;> simp [h.queue, hfirst, Stage.onStream, Stage.delivered, Stage.filed]
  pending p hp := by simp [h.queue] at hp
  tables := by
    obtain ⟨row, hrow, hid⟩ := h.task
    refine ⟨⟨row, hrow, hid, by simp [Stage.committed], by simp [Stage.dead]⟩, ?_, ?_⟩
    · simp [h.attempts, Stage.recorded]
    · simp [h.effects, Stage.committed]
  leases := ⟨h.fenceSeq, by simp [Stage.holds], fun _ => h.free⟩
  requeues := h.requeues

/-! ### How far the run is from its end -/

/-- How many calls of `_process_message` are ahead at most. -/
def weight : Pc → ℕ
  | .closePrior => 16
  | .execute .acquireLease => 15
  | .execute .recordAttempt => 14
  | .execute .startHandler => 13
  | .execute .handlerRunning => 12
  | .execute (.selectEffect _) => 11
  | .execute (.insertEffect _) => 10
  | .execute (.commitSuccess _ _) => 9
  | .execute (.closeFailed _ _) => 9
  | .execute (.rollback _) => 9
  | .execute (.abandon _) => 8
  | .execute (.releaseLease _ _) => 8
  | .returned _ _ => 7
  | .markDead => 2
  | .ack => 1
  | .ended => 0

/-- A scheduled message has to be promoted and delivered, an undelivered one delivered. -/
def queueLoad (q : QueueState) : ℕ := 2 * q.sched.length + (q.stream.length - q.delivered)

variable (c) in
/-- The work that is left, with room for the attempts to come. -/
def load (s : Sys) : ℕ :=
  20 * (1025 - s.jobs.length) + (s.jobs.map fun job => weight job.pc).sum +
    queueLoad (s.redis.queues c.queue)

theorem load_setJob {i : ℕ} (hjob : s.jobs[i]? = some job)
    (hlt : queueLoad (stores'.redis.queues c.queue) + weight job'.pc <
      queueLoad (s.redis.queues c.queue) + weight job.pc) :
    c.load (s.setJob i stores' job') < c.load s := by
  have hsum := Indexed.sum_map_set (x := job') (fun job => weight job.pc) hjob
  simp only [load, Sys.setJob_jobs, Sys.setJob_redis, List.length_set]
  omega

/-! ### The job of the token moves on -/

/-- A job is one of the past or the token's. -/
theorem Chain.position {i : ℕ} (h : c.Chain attempt stage s) (hjob : s.jobs[i]? = some job) :
    i < attempt ∨ i = attempt ∧ stage.delivered = 1 ∧ job.pc = stage.pc := by
  have hlength := h.length
  have hbound : stage.delivered ≤ 1 := by cases stage <;> simp
  have hlt := (List.getElem?_eq_some_iff.mp hjob).1
  rcases Nat.lt_or_ge i attempt with hpast | hcurrent
  · exact Or.inl hpast
  · obtain rfl : i = attempt := by omega
    exact Or.inr ⟨rfl, by omega, (h.current job hjob).pc⟩

/-- The jobs of the past are where they were. -/
theorem Chain.past_setJob {k : ℕ} {job₁ : Job} (h : c.Chain attempt stage s) (hk : k < attempt)
    (hjob₁ : (s.setJob attempt stores' job').jobs[k]? = some job₁) : c.Past k job₁ := by
  rw [Sys.setJob_jobs, Indexed.getElem?_set_of_ne (Nat.ne_of_lt hk)] at hjob₁
  exact h.past k job₁ hk hjob₁

/-- The entry of a job of the past is pending as long as the job has not acknowledged it. -/
theorem Chain.pending_setJob {p : Pending} (h : c.Chain attempt stage s)
    (hp : p ∈ (s.redis.queues c.queue).pending) (hid : p.id ≠ attempt) :
    ∃ job₁, (s.setJob attempt stores' job').jobs[p.id]? = some job₁ ∧ job₁.pc ≠ .ended := by
  obtain ⟨job₁, hjob₁, hunfinished⟩ := h.pending p hp
  refine ⟨job₁, ?_, hunfinished.resolve_right fun hstuck => hid hstuck.2⟩
  rw [Sys.setJob_jobs, Indexed.getElem?_set_of_ne hid, hjob₁]

/-- The job of the token goes on to another stage. -/
theorem Chain.advance (h : c.Chain attempt stage s) (hjob : s.jobs[attempt]? = some job)
    (hdelivered : stage.delivered = 1 ∧ stage'.delivered = 1) (hagrees : c.Agrees attempt stage')
    (hcurrent : c.Current attempt stage' job')
    (hqueue : c.OnQueue attempt stage'.onStream stage'.delivered stage'.filed
      (stores'.redis.queues c.queue))
    (hpending : ∀ p ∈ (stores'.redis.queues c.queue).pending,
      p ∈ (s.redis.queues c.queue).pending ∧
        (p.id = attempt → job'.pc ≠ .ended ∨ stage' = .stuck))
    (htables : c.OnTables (attempt + stage'.recorded) stage'.committed stage'.dead stores'.db)
    (hleases : c.OnLeases (attempt + stage'.fenced) stage'.holds (some job')
      stores'.redis.leaseStore) :
    c.Chain attempt stage' (s.setJob attempt stores' job') := by
  have hat : (s.setJob attempt stores' job').jobs[attempt]? = some job' :=
    Indexed.getElem?_set_of_eq hjob
  refine ⟨h.failed, h.room, hagrees, ?_, fun _ _ hk hjob₁ => h.past_setJob hk hjob₁, ?_, hqueue,
    ?_, htables, ?_, h.requeues⟩
  · rw [Sys.setJob_jobs, List.length_set, h.length, hdelivered.1, hdelivered.2]
  · intro job₁ hjob₁
    obtain rfl := Option.mem_unique hat hjob₁
    exact hcurrent
  · intro p hp
    obtain ⟨hold, hself⟩ := hpending p hp
    by_cases hid : p.id = attempt
    · refine ⟨job', hid ▸ hat, (hself hid).imp_right fun hstuck => ⟨hstuck, hid⟩⟩
    · obtain ⟨job₁, hjob₁, hunfinished⟩ := h.pending_setJob hold hid
      exact ⟨job₁, hjob₁, Or.inl hunfinished⟩
  · rw [hat]
    exact hleases

variable (c) in
/-- The job's call returns, and the chain goes on with less to do. -/
def Goes (s : Sys) (attempt : ℕ) (job : Job) (now draw : ℚ) : Prop :=
  ∃ out attempt' stage', job.proceed s.stores s.locks now draw = some out ∧
    c.Chain attempt' stage' (s.setJob attempt out.1 out.2) ∧
    c.load (s.setJob attempt out.1 out.2) < c.load s

variable {pc : Pc} {now draw : ℚ}

/-- A call that leaves the queues alone. -/
theorem Chain.goes (pc' : Pc) (h : c.Chain attempt (.working pc) s)
    (hjob : s.jobs[attempt]? = some job)
    (hproceed : job.proceed s.stores s.locks now draw = some (stores', job'))
    (hweight : weight pc' < weight pc) (hended : pc' ≠ .ended)
    (hagrees : c.Agrees attempt (.working pc'))
    (hcurrent : c.Current attempt (.working pc') job')
    (hqueues : stores'.redis.queues = s.redis.queues)
    (hfiled : (Stage.working pc').filed = (Stage.working pc).filed)
    (htables : c.OnTables (attempt + (Stage.working pc').recorded) (Stage.working pc').committed
      (Stage.working pc').dead stores'.db)
    (hleases : c.OnLeases (attempt + (Stage.working pc').fenced) (Stage.working pc').holds
      (some job') stores'.redis.leaseStore) :
    c.Goes s attempt job now draw := by
  refine ⟨_, attempt, .working pc', hproceed, ?_, ?_⟩
  · refine h.advance hjob ⟨rfl, rfl⟩ hagrees hcurrent ?_ ?_ htables hleases
    · rw [hqueues, hfiled]
      exact h.queue
    · intro p hp
      rw [hqueues] at hp
      exact ⟨hp, fun _ => Or.inl (by rw [hcurrent.pc]; exact hended)⟩
  · apply load_setJob hjob
    rw [hqueues, (h.current job hjob).pc, hcurrent.pc]
    exact Nat.add_lt_add_left hweight _

theorem Carries.taskText (h : c.Carries attempt job) : job.taskText = c.taskText := by
  rw [Job.taskText, h.envelope]
  rfl

theorem Carries.key (h : c.Carries attempt job) : job.key = c.envelope.effectKey := by
  rw [Job.key, h.envelope]
  rfl

theorem Carries.taskId (h : c.Carries attempt job) :
    job.envelope.taskId = c.envelope.taskId := by
  rw [h.envelope]
  rfl

/-- The job of the token, with nothing but its place in the code changed. -/
theorem Current.moves (h : c.Current attempt stage job) (hfenced : stage.fenced = 1)
    (hkept : job'.queue = job.queue ∧ job'.msgId = job.msgId ∧ job'.envelope = job.envelope ∧
      job'.fence = job.fence) (hpc : job'.pc = stage'.pc)
    (hstarted : job'.started = stage'.started) : c.Current attempt stage' job' where
  queue := hkept.1.trans h.queue
  msgId := hkept.2.1.trans h.msgId
  envelope := hkept.2.2.1.trans h.envelope
  pc := hpc
  started := hstarted
  fence _ := hkept.2.2.2.trans (h.fence hfenced)

/-- The row of an attempt is the one its number says. -/
theorem Current.ident (h : c.Current attempt stage job) (hfenced : stage.fenced = 1) :
    job.attemptRow.ident = c.ident attempt := by
  simp only [AttemptRow.ident, Job.attemptRow, RetryChain.ident, h.fence hfenced, h.envelope]
  rfl

/-- A call inside `execute` that leaves Redis alone, with the lease held. -/
theorem Chain.goes_holding {pc : ExecutePc} (pc' : ExecutePc) {db : Db}
    (h : c.Chain attempt (.working (.execute pc)) s) (hjob : s.jobs[attempt]? = some job)
    (hproceed : job.proceed s.stores s.locks now draw = some ({ s.stores with db := db }, job'))
    (hweight : weight (.execute pc') < weight (.execute pc))
    (hagrees : c.Agrees attempt (.working (.execute pc')))
    (hkept : job'.queue = job.queue ∧ job'.msgId = job.msgId ∧ job'.envelope = job.envelope ∧
      job'.fence = job.fence) (howns : job'.Owns = job.Owns) (hpc : job'.pc = .execute pc')
    (hstarted : job'.started = (Stage.working (.execute pc')).started)
    (hheld : pc ≠ .acquireLease ∧ pc' ≠ .acquireLease)
    (htables : c.OnTables (attempt + (Stage.working (.execute pc')).recorded)
      (Stage.working (.execute pc')).committed (Stage.working (.execute pc')).dead db) :
    c.Goes s attempt job now draw := by
  have hholding : ∀ pc : ExecutePc, pc ≠ .acquireLease →
      (Stage.working (.execute pc)).fenced = 1 ∧ (Stage.working (.execute pc)).holds = true := by
    intro pc hne
    cases pc <;> simp_all
  obtain ⟨hfenced, hholds⟩ := hholding pc hheld.1
  obtain ⟨hfenced', hholds'⟩ := hholding pc' hheld.2
  refine h.goes (.execute pc') hjob hproceed hweight (by simp) hagrees
    ((h.current job hjob).moves hfenced hkept hpc hstarted) rfl rfl htables ?_
  obtain ⟨holder, hholder, hown⟩ := h.leases.held hholds
  obtain rfl := Option.mem_unique hjob hholder
  rw [hfenced', hholds', ← hfenced]
  exact ⟨h.leases.fenceSeq, fun _ => ⟨job', rfl, howns ▸ hown⟩, by simp⟩

theorem Chain.not_updating (h : c.Chain attempt stage s) (taskId : Uuid) :
    s.locks.updating taskId = false := by
  simp [Sys.locks, h.requeues]

/-- No transaction has an effect in flight while the job of the token is elsewhere. -/
theorem Chain.not_inserting {key : String} (h : c.Chain attempt stage s)
    (hpc : ∀ job, s.jobs[attempt]? = some job → job.inserting key = false) :
    s.locks.inserting key = false := by
  simp only [Sys.locks, List.any_eq_false, Bool.not_eq_true]
  intro job hmem
  obtain ⟨k, hk⟩ := List.mem_iff_getElem?.mp hmem
  rcases h.position hk with hlt | ⟨rfl, -, -⟩
  · rcases (h.past k job hlt hk).pc with hpc | hpc <;> simp [Job.inserting, hpc]
  · exact hpc job hk

/-! ### What the job does to the tables -/

/-- Setting the state of the task's row, on tables that may have got their effect meanwhile. -/
theorem OnTables.updateTaskState {recorded : ℕ} {committed dead committed' dead' : Bool}
    {db₀ db : Db} (h : c.OnTables recorded committed dead db₀) (htasks : db.tasks = db₀.tasks)
    (hattempts : db.attempts = db₀.attempts)
    (heffects : db.effects.map EffectRow.dedupKey =
      if committed' then [c.envelope.effectKey] else [])
    {state : TaskState} {attemptNo : Option ℕ} (hcommitted : committed' = true → state = .succeeded)
    (hdead : dead' = true → state = .dead) :
    c.OnTables recorded committed' dead'
      (db.updateTaskState c.envelope.taskId state attemptNo) := by
  obtain ⟨row, hrow, hid, -, -⟩ := h.task
  refine ⟨⟨Db.setState c.envelope.taskId state attemptNo row, ?_, ?_, ?_, ?_⟩, ?_, heffects⟩
  · simp [Db.updateTaskState, htasks, hrow]
  · simp [hid]
  · simpa [Db.setState, hid] using hcommitted
  · simpa [Db.setState, hid] using hdead
  · rw [Db.updateTaskState_attempts, hattempts, h.attempts]

/-- Closing an attempt. -/
theorem OnTables.closeAttempt {recorded : ℕ} {committed dead : Bool} {db : Db}
    (h : c.OnTables recorded committed dead db) {taskId : Uuid} {attemptNo : ℕ}
    {outcome : AttemptOutcome} {et er : Option String} {now : ℚ} :
    c.OnTables recorded committed dead
      (db.closeAttempt taskId attemptNo outcome et er now) :=
  ⟨h.task, (Db.closeAttempt_ident ..).trans h.attempts, h.effects⟩

/-- Recording an attempt whose number is the next one. -/
theorem OnTables.recorded {recorded : ℕ} {committed dead : Bool} {db : Db} {row : AttemptRow}
    (h : c.OnTables recorded committed dead db) (hrow : row.ident = c.ident recorded) :
    db.createAttempt row = some { db with attempts := db.attempts ++ [row] } ∧
      c.OnTables (recorded + 1) committed dead { db with attempts := db.attempts ++ [row] } := by
  have htask : ∃ task ∈ db.tasks, task.id = row.taskId := by
    obtain ⟨task, htask, hid, -, -⟩ := h.task
    exact ⟨task, by simp [htask], hid.trans (congrArg Prod.fst hrow).symm⟩
  have hnew : ∀ other ∈ db.attempts,
      ¬ (other.taskId = row.taskId ∧ other.attemptNo = row.attemptNo) := by
    rintro other hother ⟨-, hno⟩
    -- the numbers on record are those of the earlier attempts
    have hmem := List.mem_map_of_mem (f := AttemptRow.ident) hother
    rw [h.attempts] at hmem
    obtain ⟨k, hk, hident⟩ := List.mem_map.mp hmem
    have hown : row.attemptNo = recorded + 1 := congrArg (fun x => x.2.1) hrow
    have hearlier : k + 1 = other.attemptNo := congrArg (fun x => x.2.1) hident
    have hlt : k < recorded := List.mem_range.mp hk
    omega
  refine ⟨if_pos ⟨htask, hnew⟩, h.task, ?_, h.effects⟩
  rw [List.map_append, h.attempts, List.range_succ, List.map_append, List.map_singleton,
    List.map_singleton, hrow]

theorem OnTables.not_hasEffect {recorded : ℕ} {dead : Bool} {db : Db}
    (h : c.OnTables recorded false dead db) (key : String) : ¬ db.HasEffect key := by
  have hnone : db.effects = [] := List.map_eq_nil_iff.mp h.effects
  simp [Db.HasEffect, hnone]

/-! ### The calls of `execute` -/

theorem Chain.goes_acquireLease (h : c.Chain attempt (.working (.execute .acquireLease)) s)
    (hjob : s.jobs[attempt]? = some job) : c.Goes s attempt job now draw := by
  have hcurrent := h.current job hjob
  have hpc : job.pc = .execute .acquireLease := hcurrent.pc
  have hfree : s.redis.leaseStore.leases job.taskText = none := by
    rw [hcurrent.taskText]
    exact h.leases.free rfl
  have hseq : s.redis.leaseStore.fenceSeq = c.fenceSeq + attempt := h.leases.fenceSeq
  -- at most 1025 fences are issued, so Lua writes them as they are
  have hsmall : s.redis.leaseStore.fenceSeq < 10 ^ 14 := by
    have hroom := h.room.2
    have hexact := c.exact_fences
    omega
  have hacquire := LeaseStore.acquireLease_of_lt _ _ job.workerId job.leaseMs hfree hsmall
  have hproceed : job.proceed s.stores s.locks now draw = some
      ({ s.stores with
          redis := s.redis.withLeases
            (s.redis.leaseStore.acquireLease job.taskText job.workerId job.leaseMs).1 },
        { job with fence := s.redis.leaseStore.fenceSeq + 1 }.goto .recordAttempt) := by
    simp [Job.proceed, hpc, Job.executeOk, hacquire]
  refine h.goes (.execute .recordAttempt) hjob hproceed (by simp [weight]) (by simp)
    trivial ?_ rfl rfl h.tables ?_
  · exact ⟨⟨hcurrent.queue, hcurrent.msgId, hcurrent.envelope⟩, rfl, hcurrent.started,
      fun _ => by rw [Job.goto, hseq]⟩
  · simp only [hacquire, Redis.withLeases_leaseStore]
    refine ⟨by rw [hseq]; rfl, fun _ => ⟨_, rfl, ?_⟩, by simp⟩
    exact ⟨_, Option.mem_def.mpr (Function.update_self ..), rfl⟩

theorem Chain.goes_recordAttempt (h : c.Chain attempt (.working (.execute .recordAttempt)) s)
    (hjob : s.jobs[attempt]? = some job) : c.Goes s attempt job now draw := by
  have hcurrent := h.current job hjob
  obtain ⟨hcreate, hrecorded⟩ := h.tables.recorded (hcurrent.ident rfl)
  have hproceed : job.proceed s.stores s.locks now draw = some
      ({ s.stores with
          db := Db.updateTaskState { s.db with attempts := s.db.attempts ++ [job.attemptRow] }
            job.envelope.taskId .leased (some job.envelope.attemptNo) },
        job.goto .startHandler) := by
    have hpc : job.pc = .execute .recordAttempt := hcurrent.pc
    simp [Job.proceed, hpc, Job.executeOk, h.not_updating, hcreate]
  refine h.goes_holding .startHandler hjob hproceed (by simp [weight]) trivial
    ⟨rfl, rfl, rfl, rfl⟩ rfl rfl hcurrent.started (by simp) ?_
  rw [hcurrent.taskId]
  exact hrecorded.updateTaskState rfl rfl hrecorded.effects (by simp) (by simp)

theorem Chain.goes_startHandler (h : c.Chain attempt (.working (.execute .startHandler)) s)
    (hjob : s.jobs[attempt]? = some job) : c.Goes s attempt job now draw := by
  have hpc : job.pc = .execute .startHandler := (h.current job hjob).pc
  have hproceed : job.proceed s.stores s.locks now draw =
      some (s.stores, { job with started := true }.goto .handlerRunning) := by
    simp [Job.proceed, hpc, Job.executeOk]
  exact h.goes_holding .handlerRunning hjob hproceed (by simp [weight]) trivial
    ⟨rfl, rfl, rfl, rfl⟩ rfl rfl rfl (by simp) h.tables

theorem Chain.goes_selectEffect {result : Option Json}
    (h : c.Chain attempt (.working (.execute (.selectEffect result))) s)
    (hjob : s.jobs[attempt]? = some job) : c.Goes s attempt job now draw := by
  have hcurrent := h.current job hjob
  have hpc : job.pc = .execute (.selectEffect result) := hcurrent.pc
  have hproceed : job.proceed s.stores s.locks now draw =
      some (s.stores, job.goto (.insertEffect result)) := by
    have habsent : s.db.checkEffect job.key job.fence = .absent :=
      Db.checkEffect_eq_absent_iff.mpr (h.tables.not_hasEffect job.key)
    simp [Job.proceed, hpc, Job.executeOk, habsent]
  exact h.goes_holding (.insertEffect result) hjob hproceed (by simp [weight]) h.agrees
    ⟨rfl, rfl, rfl, rfl⟩ rfl rfl hcurrent.started (by simp) h.tables

theorem Chain.goes_insertEffect {result : Option Json}
    (h : c.Chain attempt (.working (.execute (.insertEffect result))) s)
    (hjob : s.jobs[attempt]? = some job) : c.Goes s attempt job now draw := by
  have hcurrent := h.current job hjob
  have hpc : job.pc = .execute (.insertEffect result) := hcurrent.pc
  have hlock : s.locks.inserting job.key = false := h.not_inserting fun job₁ hjob₁ => by
    obtain rfl := Option.mem_unique hjob hjob₁
    simp [Job.inserting, hpc]
  have hproceed : job.proceed s.stores s.locks now draw =
      some (s.stores, job.goto (.commitSuccess result true)) := by
    simp [Job.proceed, hpc, Job.executeOk, hlock, h.tables.not_hasEffect]
  exact h.goes_holding (.commitSuccess result true) hjob hproceed (by simp [weight])
    h.agrees ⟨rfl, rfl, rfl, rfl⟩ rfl rfl hcurrent.started (by simp) h.tables

theorem Chain.goes_commitSuccess {result : Option Json}
    (h : c.Chain attempt (.working (.execute (.commitSuccess result true))) s)
    (hjob : s.jobs[attempt]? = some job) : c.Goes s attempt job now draw := by
  have hcurrent := h.current job hjob
  have hpc : job.pc = .execute (.commitSuccess result true) := hcurrent.pc
  have hproceed : job.proceed s.stores s.locks now draw = some
      ({ s.stores with
          db := ((s.db.insertEffect (job.effectRow result)).updateTaskState
            job.envelope.taskId .succeeded none).closeAttempt
              job.envelope.taskId job.envelope.attemptNo .succeeded none none now },
        { job with committed := true }.goto (.releaseLease true none)) := by
    simp [Job.proceed, hpc, Job.executeOk, h.not_updating]
  have hsuccess : (c.outcomes (attempt + 1)).Success := by
    have hreturned : c.outcomes (attempt + 1) = .returned result := h.agrees
    simp [hreturned, HandlerOutcome.Success]
  refine h.goes_holding (.releaseLease true none) hjob hproceed (by simp [weight])
    hsuccess ⟨rfl, rfl, rfl, rfl⟩ rfl rfl hcurrent.started (by simp) ?_
  -- the effect, the state of the task and the outcome are one commit
  have htasks : (s.db.insertEffect (job.effectRow result)).tasks = s.db.tasks := rfl
  have heffects : (s.db.insertEffect (job.effectRow result)).effects.map EffectRow.dedupKey =
      if true then [c.envelope.effectKey] else [] := by
    rw [Db.insertEffect_effects, List.map_append, h.tables.effects, ← hcurrent.key]
    rfl
  have hcommitted : c.OnTables (attempt + 1) true false
      ((s.db.insertEffect (job.effectRow result)).updateTaskState
        c.envelope.taskId .succeeded none) :=
    h.tables.updateTaskState htasks rfl heffects (by simp) (by simp)
  rw [hcurrent.taskId]
  exact hcommitted.closeAttempt

theorem Chain.goes_closeFailed {type text : String}
    (h : c.Chain attempt (.working (.execute (.closeFailed type text))) s)
    (hjob : s.jobs[attempt]? = some job) : c.Goes s attempt job now draw := by
  have hcurrent := h.current job hjob
  have hpc : job.pc = .execute (.closeFailed type text) := hcurrent.pc
  have hproceed : job.proceed s.stores s.locks now draw = some
      ({ s.stores with
          db := s.db.closeAttempt job.envelope.taskId job.envelope.attemptNo
            (if type = "FenceRejectedError" then .leaseLost else .failed) (some type) (some text)
            now },
        job.goto (.releaseLease false (some text))) := by
    simp [Job.proceed, hpc, Job.executeOk]
  exact h.goes_holding (.releaseLease false (some text)) hjob hproceed (by simp [weight])
    h.agrees ⟨rfl, rfl, rfl, rfl⟩ rfl rfl hcurrent.started (by simp) h.tables.closeAttempt

/-- The release of a lease that is the job's own and recognized. -/
theorem release_of_owns (stores : Stores) (howns : job.Owns stores.redis.leaseStore)
    (hfence : job.fence < 10 ^ 14) :
    (job.release stores).redis.leaseStore.leases job.taskText = none ∧
      (job.release stores).redis.leaseStore.fenceSeq = stores.redis.leaseStore.fenceSeq := by
  obtain ⟨lease, hheld, howner⟩ := howns
  have hsame : lease.owner = job.workerId ++ ":" ++ toString (job.fence : ℤ) :=
    howner.trans (Job.ownerText_eq_iff.mpr (NumberText.tostring_of_lt hfence))
  refine ⟨?_, by simp [Job.release]⟩
  have hstore : (job.release stores).redis.leaseStore =
      (stores.redis.leaseStore.releaseLease job.taskText job.workerId job.fence).1 := rfl
  rw [hstore, LeaseStore.releaseLease, Option.mem_def.mp hheld]
  simp only [if_pos hsame, Function.update_self]

theorem Chain.goes_releaseLease {success : Bool} {text : Option String}
    (h : c.Chain attempt (.working (.execute (.releaseLease success text))) s)
    (hjob : s.jobs[attempt]? = some job) : c.Goes s attempt job now draw := by
  have hcurrent := h.current job hjob
  have hpc : job.pc = .execute (.releaseLease success text) := hcurrent.pc
  have hproceed : job.proceed s.stores s.locks now draw =
      some (job.release s.stores, job.returns success text) := by
    simp [Job.proceed, hpc, Job.executeOk]
  have hsmall : job.fence < 10 ^ 14 := by
    have hroom := h.room.2
    have hexact := c.exact_fences
    have hfence := hcurrent.fence rfl
    omega
  -- the lease is the job's own, so that it is free for the next attempt
  obtain ⟨holder, hholder, howns⟩ := h.leases.held rfl
  obtain rfl := Option.mem_unique hjob hholder
  obtain ⟨hfree, hseq⟩ := release_of_owns s.stores howns hsmall
  refine h.goes (.returned success text) hjob hproceed (by simp [weight]) (by simp) ?_
    (hcurrent.moves rfl ⟨rfl, rfl, rfl, rfl⟩ rfl hcurrent.started) rfl rfl ?_
    ⟨hseq.trans h.leases.fenceSeq, by simp, fun _ => ?_⟩
  · cases success <;> exact h.agrees
  · cases success <;> exact h.tables
  · rw [← hcurrent.taskText]
    exact hfree

/-! ### The calls of `_process_message` -/

/-- With a policy that lists no errors, only the limit counts. -/
theorem Carries.retries_iff (h : c.Carries attempt job) {text : Option String} :
    job.retries text = true ↔ attempt + 1 < c.limit := by
  have hpolicy : job.envelope.retryPolicy = c.envelope.retryPolicy := by rw [h.envelope]; rfl
  have hattempt : job.envelope.attempt = attempt := by rw [h.envelope]; rfl
  rw [Job.retries, hpolicy, hattempt, isRetryable_iff, c.limit_eq, RetryPolicy.Admits, c.plain.1,
    c.plain.2]
  simp only [List.not_mem_nil, not_false_eq_true, true_or, and_self, and_true]
  exact_mod_cast Iff.rfl

/-- What a job does to the keys of its queue. -/
theorem Carries.onQueue (h : c.Carries attempt job) (stores : Stores)
    (f : QueueState → QueueState) :
    (job.onQueue stores f).redis.queues c.queue = f (stores.redis.queues c.queue) := by
  simp [Job.onQueue, h.queue]

/-- The last acknowledgement of the chain. -/
theorem Chain.goes_ack (success : Bool) (h : c.Chain attempt (.working pc) s)
    (hjob : s.jobs[attempt]? = some job)
    (hproceed : job.proceed s.stores s.locks now draw =
      some (job.onQueue s.stores (·.ack job.msgId), { job with pc := .ended }))
    (hweight : 0 < weight pc) (hagrees : c.Agrees attempt (.finished success))
    (hfenced : (Stage.working pc).fenced = 1) (hstarted : (Stage.working pc).started = true)
    (hholds : (Stage.working pc).holds = false)
    (hfiled : (Stage.finished success).filed = (Stage.working pc).filed)
    (htables : c.OnTables (attempt + 1) (Stage.finished success).committed
      (Stage.finished success).dead s.db) : c.Goes s attempt job now draw := by
  have hcurrent := h.current job hjob
  have hqueue : (job.onQueue s.stores (·.ack job.msgId)).redis.queues c.queue =
      (s.redis.queues c.queue).ack attempt := by
    rw [hcurrent.onQueue, hcurrent.msgId]
    rfl
  refine ⟨_, attempt, .finished success, hproceed, ?_, ?_⟩
  · refine h.advance hjob ⟨rfl, rfl⟩ hagrees
      (hcurrent.moves hfenced ⟨rfl, rfl, rfl, rfl⟩ rfl (hcurrent.started.trans hstarted)) ?_ ?_
      htables ?_
    · rw [hqueue, hfiled]
      exact ⟨h.queue.stream, h.queue.delivered, h.queue.sched, h.queue.dlq⟩
    · intro p hp
      rw [hqueue] at hp
      obtain ⟨hold, hne⟩ := List.mem_filter.mp hp
      exact ⟨hold, fun hid => absurd hid (by simpa using hne)⟩
    · have hleases := h.leases
      rw [hfenced, hholds] at hleases
      exact ⟨hleases.fenceSeq, by simp, hleases.free⟩
  · apply load_setJob hjob
    rw [hqueue, hcurrent.pc]
    exact Nat.add_lt_add_left hweight _

theorem Chain.goes_success {text : Option String}
    (h : c.Chain attempt (.working (.returned true text)) s)
    (hjob : s.jobs[attempt]? = some job) : c.Goes s attempt job now draw := by
  have hpc : job.pc = .returned true text := (h.current job hjob).pc
  have hproceed : job.proceed s.stores s.locks now draw =
      some (job.onQueue s.stores (·.ack job.msgId), { job with pc := .ended }) := by
    simp [Job.proceed, hpc]
  exact h.goes_ack true hjob hproceed (by simp [weight]) h.agrees rfl rfl rfl rfl
    h.tables

/-- The failures of a chain whose token has failed too. -/
theorem Chain.failed_succ (h : c.Chain attempt stage s)
    (hfailure : ¬ (c.outcomes (attempt + 1)).Success) :
    ∀ j, 1 ≤ j → j ≤ attempt + 1 → ¬ (c.outcomes j).Success := by
  intro j hpos hle
  rcases Nat.lt_or_ge attempt j with hlast | hearlier
  · obtain rfl : j = attempt + 1 := by omega
    exact hfailure
  · exact h.failed j hpos hearlier

/-- A scheduled retry is the token of the next attempt, and the job that has failed is one of
the past. -/
theorem Chain.hands_on {text : Option String} {runAt : ℚ}
    (h : c.Chain attempt (.working (.returned false text)) s)
    (hjob : s.jobs[attempt]? = some job) (hlimit : attempt + 1 < c.limit) (hlt : attempt < 1024)
    (hqueue : stores'.redis.queues c.queue =
      { s.redis.queues c.queue with sched := [(c.numbered (attempt + 1), runAt)] })
    (hdb : stores'.db = s.db) (hleases : stores'.redis.leaseStore = s.redis.leaseStore)
    (hpast : c.Past attempt job') (hended : job'.pc ≠ .ended) :
    c.Chain (attempt + 1) .scheduled (s.setJob attempt stores' job') := by
  have hat : (s.setJob attempt stores' job').jobs[attempt]? = some job' :=
    Indexed.getElem?_set_of_eq hjob
  have hlength : (s.setJob attempt stores' job').jobs.length = attempt + 1 := by
    rw [Sys.setJob_jobs, List.length_set, h.length]
    rfl
  -- the job of the failed attempt joins the past, and the attempt its failures
  refine ⟨fun k hpos hle => ?_, ⟨hlimit, hlt⟩, trivial, hlength, fun k job₁ hk hjob₁ => ?_,
    fun job₁ hjob₁ => ?_, ?_, fun p hp => ?_, ?_, ?_, h.requeues⟩
  · exact h.failed_succ h.agrees k hpos hle
  · rcases Nat.lt_succ_iff_lt_or_eq.mp hk with hk | rfl
    · exact h.past_setJob hk hjob₁
    · obtain rfl := Option.mem_unique hat hjob₁
      exact hpast
  · -- there is no job for the new attempt yet
    have hout := (List.getElem?_eq_some_iff.mp hjob₁).1
    omega
  · rw [Sys.setJob_redis, hqueue]
    exact ⟨h.queue.stream, h.queue.delivered, rfl, h.queue.dlq⟩
  · rw [Sys.setJob_redis, hqueue] at hp
    by_cases hid : p.id = attempt
    · exact ⟨job', hid ▸ hat, Or.inl hended⟩
    · obtain ⟨job₁, hjob₁, hunfinished⟩ := h.pending_setJob hp hid
      exact ⟨job₁, hjob₁, Or.inl hunfinished⟩
  · rw [Sys.setJob_db, hdb]
    exact h.tables
  · rw [Sys.setJob_redis, hleases]
    exact ⟨h.leases.fenceSeq, by simp, fun _ => h.leases.free rfl⟩

theorem Chain.goes_retry {text : Option String}
    (h : c.Chain attempt (.working (.returned false text)) s)
    (hjob : s.jobs[attempt]? = some job) (hlimit : attempt + 1 < c.limit) (hlt : attempt < 1024) :
    c.Goes s attempt job now draw := by
  have hcurrent := h.current job hjob
  have hpc : job.pc = .returned false text := hcurrent.pc
  have hretry : job.retries text = true := hcurrent.retries_iff.mpr hlimit
  obtain ⟨delay, hdelay⟩ : ∃ delay, computeDelay job.envelope.retryPolicy
      (job.envelope.attempt + 1) draw = some delay := by
    rw [hcurrent.envelope]
    exact ⟨_, if_pos hlt⟩
  have hproceed : job.proceed s.stores s.locks now draw =
      some (job.onQueue s.stores (·.schedule job.envelope.nextAttempt (now + delay)),
        { job with pc := .ack }) := by
    simp only [Job.proceed, hpc, hretry, if_true, hdelay, Option.map_some]
  -- nothing else is scheduled, so the retry is the one entry of the set
  have hnone : (s.redis.queues c.queue).sched = [] := List.map_eq_nil_iff.mp h.queue.sched
  have hqueue : (job.onQueue s.stores
        (·.schedule job.envelope.nextAttempt (now + delay))).redis.queues c.queue =
      { s.redis.queues c.queue with sched := [(c.numbered (attempt + 1), now + delay)] } := by
    rw [hcurrent.onQueue, hcurrent.envelope, QueueState.schedule, Sys.stores_redis, hnone]
    rfl
  refine ⟨_, attempt + 1, .scheduled, hproceed, ?_, ?_⟩
  · exact h.hands_on hjob hlimit hlt hqueue rfl rfl
      ⟨⟨hcurrent.queue, hcurrent.msgId, hcurrent.envelope⟩, Or.inl rfl, hcurrent.started,
        hcurrent.fence rfl⟩ (by simp)
  · apply load_setJob hjob
    simp only [hqueue, hpc, queueLoad, hnone, weight, List.length_nil, List.length_singleton]
    omega

/-- At the limit the envelope is dead-lettered. -/
theorem Chain.goes_deadLetter {text : Option String}
    (h : c.Chain attempt (.working (.returned false text)) s)
    (hjob : s.jobs[attempt]? = some job) (hlimit : c.limit ≤ attempt + 1) :
    c.Goes s attempt job now draw := by
  have hcurrent := h.current job hjob
  have hpc : job.pc = .returned false text := hcurrent.pc
  have hretry : job.retries text = false := by
    rw [Bool.eq_false_iff, Ne, hcurrent.retries_iff]
    omega
  have hproceed : job.proceed s.stores s.locks now draw =
      some (job.onQueue s.stores (·.deadLetter job.envelope (Job.deadLetterReason text)),
        { job with pc := .markDead }) := by
    simp [Job.proceed, hpc, hretry]
  have hqueue : (job.onQueue s.stores
        (·.deadLetter job.envelope (Job.deadLetterReason text))).redis.queues c.queue =
      (s.redis.queues c.queue).deadLetter (c.numbered attempt) (Job.deadLetterReason text) := by
    rw [hcurrent.onQueue, hcurrent.envelope]
    rfl
  have hdlq : (s.redis.queues c.queue).dlq = [] := List.map_eq_nil_iff.mp h.queue.dlq
  refine ⟨_, attempt, .working .markDead, hproceed, ?_, ?_⟩
  · refine h.advance hjob ⟨rfl, rfl⟩ ⟨h.agrees, hlimit⟩
      (hcurrent.moves rfl ⟨rfl, rfl, rfl, rfl⟩ rfl hcurrent.started) ?_ ?_ h.tables
      ⟨h.leases.fenceSeq, by simp, fun _ => h.leases.free rfl⟩
    · rw [hqueue]
      exact ⟨h.queue.stream, h.queue.delivered, h.queue.sched, by
        simp [QueueState.deadLetter, hdlq]⟩
    · intro p hp
      rw [hqueue] at hp
      exact ⟨hp, fun _ => Or.inl (by simp)⟩
  · apply load_setJob hjob
    rw [hqueue, hpc]
    exact Nat.add_lt_add_left (show weight .markDead < weight (.returned false text) by
      simp [weight]) _

theorem Chain.goes_markDead (h : c.Chain attempt (.working .markDead) s)
    (hjob : s.jobs[attempt]? = some job) : c.Goes s attempt job now draw := by
  have hcurrent := h.current job hjob
  have hpc : job.pc = .markDead := hcurrent.pc
  have hproceed : job.proceed s.stores s.locks now draw =
      some ({ s.stores with db := s.db.updateTaskState job.envelope.taskId .dead none },
        { job with pc := .ack }) := by
    simp [Job.proceed, hpc, h.not_updating]
  refine h.goes .ack hjob hproceed (by simp [weight]) (by simp) h.agrees
    (hcurrent.moves rfl ⟨rfl, rfl, rfl, rfl⟩ rfl hcurrent.started) rfl rfl ?_
    ⟨h.leases.fenceSeq, by simp, fun _ => h.leases.free rfl⟩
  rw [hcurrent.taskId]
  exact h.tables.updateTaskState rfl rfl h.tables.effects (by simp) (by simp)

theorem Chain.goes_lastAck (h : c.Chain attempt (.working .ack) s)
    (hjob : s.jobs[attempt]? = some job) : c.Goes s attempt job now draw := by
  have hpc : job.pc = .ack := (h.current job hjob).pc
  have hproceed : job.proceed s.stores s.locks now draw =
      some (job.onQueue s.stores (·.ack job.msgId), { job with pc := .ended }) := by
    simp [Job.proceed, hpc]
  exact h.goes_ack false hjob hproceed (by simp [weight]) h.agrees rfl rfl rfl rfl
    h.tables

/-- The job of the token gets on with every call that returns, unless it is asked for a delay
that cannot be computed. -/
theorem Chain.goes_working (h : c.Chain attempt (.working pc) s)
    (hjob : s.jobs[attempt]? = some job) (hrunning : pc ≠ .execute .handlerRunning)
    (hdelay : ∀ text, pc = .returned false text → attempt + 1 < c.limit → attempt < 1024) :
    c.Goes s attempt job now draw := by
  cases pc with
  | closePrior => exact h.agrees.elim
  | ended => exact h.agrees.elim
  | execute pc =>
    cases pc with
    | acquireLease => exact h.goes_acquireLease hjob
    | recordAttempt => exact h.goes_recordAttempt hjob
    | startHandler => exact h.goes_startHandler hjob
    | handlerRunning => exact absurd rfl hrunning
    | selectEffect result => exact h.goes_selectEffect hjob
    | insertEffect result => exact h.goes_insertEffect hjob
    | commitSuccess result committed =>
      cases committed with
      | true => exact h.goes_commitSuccess hjob
      | false => exact h.agrees.elim
    | closeFailed type text => exact h.goes_closeFailed hjob
    | releaseLease success text => exact h.goes_releaseLease hjob
    | abandon error => exact h.agrees.elim
    | rollback error => exact h.agrees.elim
  | returned success text =>
    cases success with
    | true => exact h.goes_success hjob
    | false =>
      rcases Nat.lt_or_ge (attempt + 1) c.limit with hlimit | hlimit
      · exact h.goes_retry hjob hlimit (hdelay text rfl hlimit)
      · exact h.goes_deadLetter hjob hlimit
  | markDead => exact h.goes_markDead hjob
  | ack => exact h.goes_lastAck hjob

end RetryChain

end Dtq
