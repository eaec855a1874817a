import Dtq.System.AttemptNumbers
import Dtq.System.Queues

/-!
# What is told of a task

`GET /v1/tasks/{id}` of `dtq/control/app.py` reads the row of the task and then, in another
statement, its attempts. The state and the attempt number in the row are written by whoever has
something to write, workers, requeue requests and cancellations, and nobody compares them with
anything.

All the same, in every reachable state they are so: an attempt number is that of an attempt on
record, a leased task has one, a dead task has a dead letter, a succeeded one its effect, and one
that waits or was cancelled has not been taken up since it was put in. And since nothing of this is
taken back, the answer is consistent although it is read in two statements.

## Main results

* `Sys.Telling.step` — every step keeps this
* `Sys.task_report` — what the answer says
-/

set_option autoImplicit false

namespace Dtq

/-- One attempt in the answer. -/
structure AttemptInfo where
  attemptNo : ℕ
  workerId : String
  fence : ℕ
  finishedAt : Option ℚ
  outcome : Option AttemptOutcome
  errorType : Option String
  errorRepr : Option String
deriving DecidableEq

/-- The answer to `GET /v1/tasks/{id}`. -/
structure TaskDetailResponse where
  id : Uuid
  queue : String
  taskName : String
  payload : Json
  state : TaskState
  priority : ℤ
  attempt : ℕ
  maxAttempts : ℤ
  dedupKey : Option String
  runAt : Option DateTime
  workflowId : Option Uuid
  stepName : Option String
  attempts : List AttemptInfo

def AttemptRow.info (a : AttemptRow) : AttemptInfo where
  attemptNo := a.attemptNo
  workerId := a.workerId
  fence := a.fence
  finishedAt := a.finishedAt
  outcome := a.outcome
  errorType := a.errorType
  errorRepr := a.errorRepr

def TaskRow.detail (row : TaskRow) (attempts : List AttemptRow) : TaskDetailResponse where
  id := row.id
  queue := row.queue
  taskName := row.taskName
  payload := row.payload
  state := row.state
  priority := row.priority
  attempt := row.attempt
  maxAttempts := row.maxAttempts
  dedupKey := row.dedupKey
  runAt := row.runAt
  workflowId := row.workflowId
  stepName := row.stepName
  attempts := attempts.map AttemptRow.info

/-- `get_attempts`: those of the task, `ORDER BY attempt_no`. -/
def Db.getAttempts (db : Db) (taskId : Uuid) : List AttemptRow :=
  (db.attempts.filter fun a => a.taskId = taskId).insertionSort fun a b =>
    a.attemptNo ≤ b.attemptNo

/-- `get_task`: the row as the first statement finds it, the attempts as the second one does; `none`
is the answer 404. -/
def getTask (first second : Db) (taskId : Uuid) : Option TaskDetailResponse :=
  (first.findTask taskId).map fun row => row.detail (second.getAttempts taskId)

namespace Sys

variable {s s' : Sys} {a : Action} {row : TaskRow}

/-- A dead letter of the task is in a queue's DLQ. -/
def HasDeadLetter (s : Sys) (taskId : Uuid) : Prop :=
  ∃ queue, ∃ d ∈ (s.redis.queues queue).dlq, d.1.taskId = taskId

/-- What the row says of its task is so. -/
structure Tells (s : Sys) (row : TaskRow) : Prop where
  untouched : row.state = .pending ∨ row.state = .scheduled ∨ row.state = .cancelled →
    row.attempt = 0
  leased : row.state = .leased → row.attempt ≠ 0
  recorded : row.attempt ≠ 0 → s.HasAttempt row.id row.attempt
  dead : row.state = .dead → s.HasDeadLetter row.id
  known : row.state ≠ .failed

/-- Every row tells what is so, whoever is about to mark a task dead has filed a dead letter, and no
two attempts of a task have the same number. -/
structure Telling (s : Sys) : Prop where
  rows : ∀ row ∈ s.db.tasks, s.Tells row
  jobs : ∀ job ∈ s.jobs, job.pc = .markDead → s.HasDeadLetter job.envelope.taskId
  numbers : (s.db.attempts.map fun a => (a.taskId, a.attemptNo)).Nodup

/-! ### Nothing is taken back -/

/-- Dead letters stay where they are. -/
theorem Moves.dlq_grow (h : s.Moves a s') (queue : String) :
    (s.redis.queues queue).dlq <+: (s'.redis.queues queue).dlq := by
  have hmoves := h.queue_cases queue
  generalize s'.redis.queues queue = q' at hmoves
  -- only `dead_letter` writes to it, and nobody deletes
  cases hmoves with
  | enqueued hadded => cases hadded <;> exact List.prefix_refl _
  | deadLettered => exact List.prefix_append _ _
  | promoted =>
    rw [QueueState.promoteScheduled_eq]
  | same | requeued | delivered | adopted | acked | retried => exact List.prefix_refl _

theorem Moves.hasDeadLetter (h : s.Moves a s') {taskId : Uuid} (hdead : s.HasDeadLetter taskId) :
    s'.HasDeadLetter taskId := by
  obtain ⟨queue, d, hd, hid⟩ := hdead
  exact ⟨queue, d, (h.dlq_grow queue).subset hd, hid⟩

/-- Attempts stay on record, with their numbers and fences. -/
theorem Moves.ident_kept (h : s.Moves a s') :
    ∀ x ∈ s.db.attempts.map AttemptRow.ident, x ∈ s'.db.attempts.map AttemptRow.ident := by
  intro x hx
  rcases h.worker_cases with
    ⟨i, job, job', stores', -, -, hmove, rfl⟩ | ⟨job, -, -, hdb, -⟩ | ⟨-, -, hattempts, -⟩
  · exact hmove.ident_kept x hx
  · exact hdb ▸ hx
  · exact hattempts ▸ hx

theorem Moves.hasAttempt (h : s.Moves a s') {taskId : Uuid} {no : ℕ}
    (hattempt : s.HasAttempt taskId no) : s'.HasAttempt taskId no := by
  rw [hasAttempt_iff_ident] at hattempt ⊢
  obtain ⟨x, hx, hmatch⟩ := hattempt
  exact ⟨x, h.ident_kept x hx, hmatch⟩

theorem Moves.tells (h : s.Moves a s') (htells : s.Tells row) : s'.Tells row where
  untouched := htells.untouched
  leased := htells.leased
  recorded := fun hne => h.hasAttempt (htells.recorded hne)
  dead := fun hdead => h.hasDeadLetter (htells.dead hdead)
  known := htells.known

/-! ### What is written -/

/-- A row under `update_task_state`: what is to be shown of the one that is written. -/
theorem Tells.setState {taskId : Uuid} {state : TaskState} {attempt : Option ℕ}
    (h : s.Tells row) (hwritten : row.id = taskId →
      s.Tells { row with state := state, attempt := attempt.getD row.attempt }) :
    s.Tells (Db.setState taskId state attempt row) := by
  unfold Db.setState
  split_ifs with hid
  · exact hwritten hid
  · exact h

/-- Tasks that are requeued are put back to where they started. -/
theorem tells_of_mem_foldl_pending (ids : List Uuid) {db : Db} (h : ∀ row ∈ db.tasks, s.Tells row) :
    ∀ row ∈ (ids.foldl (fun db t => db.updateTaskState t .pending (some 0)) db).tasks,
      s.Tells row := by
  induction ids generalizing db with
  | nil => exact h
  | cons taskId ids ih =>
    refine ih fun row hrow => ?_
    obtain ⟨old, hold, rfl⟩ := List.mem_map.mp hrow
    exact (h old hold).setState fun _ => ⟨by simp, by simp, by simp, by simp, by simp⟩

/-- What the write of a job says is so. -/
theorem Telling.tells_of_job (h : s.Telling) {i : ℕ} {job job' : Job} {stores' : Stores}
    (hjob : s.jobs[i]? = some job) (hmove : job.Moves s.stores s.locks stores' job')
    (hmoves : s.Moves a (s.setJob i stores' job')) :
    ∀ row ∈ stores'.db.tasks, (s.setJob i stores' job').Tells row := by
  have hkeeps : ∀ row ∈ s.db.tasks, (s.setJob i stores' job').Tells row :=
    fun row hrow => hmoves.tells (h.rows row hrow)
  intro row hrow
  -- of the calls of a job, three write to the row
  obtain rfl | ⟨job'', hproceeds⟩ := hmove.stores_cases
  · exact hkeeps row hrow
  · cases hproceeds with
    | recorded hpc hlock htask hnew =>
      obtain ⟨old, hold, rfl⟩ := List.mem_map.mp hrow
      refine (hkeeps old hold).setState fun hid => ⟨by simp, ?_, fun _ => ?_, by simp, by simp⟩
      · simp [TaskEnvelope.attemptNo]
      · -- the attempt is recorded in the same transaction
        exact ⟨job.attemptRow, List.mem_append_right _ (List.mem_singleton_self _), hid.symm, rfl⟩
    | committedEffect result now hpc =>
      obtain ⟨old, hold, rfl⟩ := List.mem_map.mp hrow
      refine (hkeeps old hold).setState fun _ => ?_
      exact ⟨by simp, by simp, (hkeeps old hold).recorded, by simp, by simp⟩
    | markedDead hpc hlock =>
      obtain ⟨old, hold, rfl⟩ := List.mem_map.mp hrow
      refine (hkeeps old hold).setState fun hid => ?_
      have hdead := hmoves.hasDeadLetter (h.jobs job (List.mem_of_getElem? hjob) hpc)
      exact ⟨by simp, by simp, (hkeeps old hold).recorded, fun _ => hid ▸ hdead, by simp⟩
    | _ => exact hkeeps row hrow

/-- A row that a request inserts. -/
theorem tells_row (req : CreateTaskRequest) (taskId : Uuid) : s.Tells (req.row taskId) := by
  have hstate : (req.row taskId).state = .pending ∨ (req.row taskId).state = .scheduled := by
    by_cases hnone : req.runAt.isNone <;> simp [CreateTaskRequest.row, hnone]
  refine ⟨fun _ => rfl, fun hleased => ?_, fun hne => absurd rfl hne, fun hdead => ?_,
    fun hfailed => ?_⟩
  · simp [hleased] at hstate
  · simp [hdead] at hstate
  · simp [hfailed] at hstate

/-- The rows after a step tell what is so. -/
theorem Telling.rows_step (h : s.Telling) (hmoves : s.Moves a s') :
    ∀ row ∈ s'.db.tasks, s'.Tells row := by
  have hkeeps : ∀ row ∈ s.db.tasks, s'.Tells row := fun row hrow => hmoves.tells (h.rows row hrow)
  cases hmoves with
  | job ha hjob hmove => exact h.tells_of_job hjob hmove (.job ha hjob hmove)
  | @post i reply post out ha hpost hmove =>
    intro row hrow
    rcases hmove.db_cases with hdb | ⟨-, hdb⟩
    · rw [setPost_db, hdb] at hrow
      exact hkeeps row hrow
    · rw [setPost_db, hdb] at hrow
      rcases List.mem_append.mp hrow with hold | hnew
      · exact hkeeps row hold
      · rw [List.mem_singleton.mp hnew]
        exact tells_row _ _
  | requeue ha hrequeue hmove =>
    intro row hrow
    rcases hmove.db_cases with hdb | hdb
    · rw [setRequeue_db, hdb] at hrow
      exact hkeeps row hrow
    · rw [setRequeue_db, hdb] at hrow
      exact tells_of_mem_foldl_pending _ hkeeps row hrow
  | cancelled =>
    intro row hrow
    obtain ⟨old, hold, rfl⟩ := List.mem_map.mp hrow
    have htells := hkeeps old hold
    -- only a task that waits is cancelled
    split_ifs with hwaits
    · exact ⟨fun _ => htells.untouched (hwaits.2.imp_right Or.inl), by simp, htells.recorded,
        by simp, by simp⟩
    · exact htells
  | delivered | adopted | posted | produced | requeued | leases | promoted => exact hkeeps

/-- A job that is about to mark its task dead has filed the dead letter. -/
theorem Telling.jobs_step (h : s.Telling) (hmoves : s.Moves a s') :
    ∀ job ∈ s'.jobs, job.pc = .markDead → s'.HasDeadLetter job.envelope.taskId := by
  have hkeeps : ∀ job ∈ s.jobs, job.pc = .markDead → s'.HasDeadLetter job.envelope.taskId :=
    fun job hjob hpc => hmoves.hasDeadLetter (h.jobs job hjob hpc)
  cases hmoves with
  | @job _ i job job' stores' ha hjob hmove =>
    apply Indexed.forall_mem_set hkeeps
    intro hpc'
    cases hmove with
    | proceeds hproceeds =>
      cases hproceeds with
      | deadLettered text hpc hretry =>
        exact ⟨job.queue, (job.envelope, Job.deadLetterReason text),
          by simp [Job.onQueue, QueueState.deadLetter], rfl⟩
      | _ => simp [Job.returns, Job.goto, Job.adopted] at hpc'
    | raisedAfter hproceeds hexc | failed hactive hexc =>
      -- no exception handler marks a task dead
      have hnever : Pc.Exceptional .markDead := hpc' ▸ hexc
      cases hnever
    | skippedPrior hpc => simp [Job.adopted] at hpc'
    | handlerEnded hpc hnext =>
      obtain ⟨r, rfl⟩ | ⟨type, text, rfl⟩ := hnext <;> simp [Job.goto] at hpc'
  | delivered hentry =>
    exact Indexed.forall_mem_append_singleton hkeeps fun hpc => absurd hpc (by simp [deliveredJob])
  | adopted hpending hentry =>
    exact Indexed.forall_mem_append_singleton hkeeps fun hpc => absurd hpc (by simp [deliveredJob])
  | post | requeue | cancelled | posted | produced | requeued | leases | promoted => exact hkeeps

/-- No number is recorded twice. -/
theorem Telling.numbers_step (h : s.Telling) (hmoves : s.Moves a s') :
    (s'.db.attempts.map fun a => (a.taskId, a.attemptNo)).Nodup := by
  have hpairs : ∀ rows : List AttemptRow, (rows.map fun a => (a.taskId, a.attemptNo)) =
      (rows.map AttemptRow.ident).map fun x => (x.1, x.2.1) := by
    intro rows
    simp [AttemptRow.ident]
  rcases hmoves.worker_cases with
    ⟨i, job, job', stores', -, -, hmove, rfl⟩ | ⟨job, -, -, hdb, -⟩ | ⟨-, -, hattempts, -⟩
  · rcases hmove.attempts_cases with hsame | ⟨-, hnew, happend⟩
    · rw [setJob_db, hpairs, hsame, ← hpairs]
      exact h.numbers
    · rw [setJob_db, happend, List.map_append]
      refine List.nodup_append.mpr ⟨h.numbers, List.nodup_singleton _, ?_⟩
      intro x hx y hy heq
      obtain ⟨other, hother, rfl⟩ := List.mem_map.mp hx
      obtain rfl := List.mem_singleton.mp hy
      obtain ⟨hid, hno⟩ := Prod.mk.inj heq
      exact hnew other hother ⟨hid, hno⟩
  · exact hdb ▸ h.numbers
  · exact hattempts ▸ h.numbers

theorem Telling.step (h : s.Telling) (hstep : s.step a = some s') : s'.Telling :=
  ⟨h.rows_step (moves_of_step hstep), h.jobs_step (moves_of_step hstep),
    h.numbers_step (moves_of_step hstep)⟩

theorem telling_init : Telling init where
  rows := fun _ hrow => absurd hrow List.not_mem_nil
  jobs := fun _ hjob => absurd hjob List.not_mem_nil
  numbers := List.nodup_nil

theorem Reachable.telling (h : s.Reachable) : s.Telling :=
  Transition.Reaches.invariant (fun _ _ _ htelling hstep => htelling.step hstep) h telling_init

/-! ### The answer -/

/-- The attempts of the task, and no others. -/
theorem mem_getAttempts {db : Db} {taskId : Uuid} {a : AttemptRow} :
    a ∈ db.getAttempts taskId ↔ a ∈ db.attempts ∧ a.taskId = taskId := by
  simp [Db.getAttempts, List.mem_insertionSort]

/-- They stand in the order of their numbers, which are different. -/
theorem Telling.getAttempts_sorted (h : s.Telling) (taskId : Uuid) :
    (s.db.getAttempts taskId).Pairwise fun a b => a.attemptNo < b.attemptNo := by
  let before (a b : AttemptRow) : Prop := a.attemptNo ≤ b.attemptNo
  have : IsTrans AttemptRow before := ⟨fun _ _ _ => le_trans⟩
  have : Std.Total before := ⟨fun _ _ => le_total _ _⟩
  have hordered : (s.db.getAttempts taskId).Pairwise before := List.pairwise_insertionSort before _
  have hfiltered : (s.db.attempts.filter fun a => a.taskId = taskId).Pairwise
      fun a b => a.attemptNo ≠ b.attemptNo := by
    refine ((List.pairwise_map.mp h.numbers).filter _).imp_of_mem fun {a b} ha hb hne heq => hne ?_
    have hida := of_decide_eq_true (List.mem_filter.mp ha).2
    have hidb := of_decide_eq_true (List.mem_filter.mp hb).2
    rw [hida, hidb, heq]
  have hdistinct : (s.db.getAttempts taskId).Pairwise fun a b => a.attemptNo ≠ b.attemptNo :=
    (List.perm_insertionSort _ _).symm.pairwise hfiltered fun hne => hne.symm
  exact hordered.imp₂ (fun a b hle hne => lt_of_le_of_ne hle hne) hdistinct

/-- An attempt on record stays there. -/
theorem hasAttempt_of_reaches {taskId : Uuid} {no : ℕ} (h : Transition.Reaches step s s')
    (hattempt : s.HasAttempt taskId no) : s'.HasAttempt taskId no :=
  Transition.Reaches.invariant (I := fun s : Sys => s.HasAttempt taskId no)
    (fun _ _ _ hbefore hstep => (moves_of_step hstep).hasAttempt hbefore) h hattempt

/-- One of the attempts of a task has the fence of its effect. -/
theorem FenceInv.existsUnique_attempt (h : s.FenceInv) {effect : EffectRow}
    (heffect : effect ∈ s.db.effects) :
    ∃! a, a ∈ s.db.attempts ∧ a.taskId = effect.taskId ∧ a.fence = effect.fence := by
  obtain ⟨x, hx, hid, hfence⟩ := h.effects effect heffect
  obtain ⟨a, ha, rfl⟩ := List.mem_map.mp hx
  refine ⟨a, ⟨ha, hid, hfence⟩, fun other hother => ?_⟩
  have hdistinct := h.distinct
  rw [List.map_map] at hdistinct
  exact List.inj_on_of_nodup_map hdistinct hother.1 ha (hother.2.2.trans hfence.symm)

/-- **A task's report.** Whatever the workers and requests have done and do between its two
statements, the answer to `GET /v1/tasks/{id}` says what is so:

* the attempts are those on record when they are read, each once and in the order of their numbers,
  and among them is the one that the task's attempt number names;
* a task that waits or was cancelled has no such number, and a leased one has;
* a dead task has a dead letter;
* a succeeded task has an effect, and as long as `fence:seq` is exact, exactly one of the attempts
  has the fence of that effect. -/
theorem task_report {taskId : Uuid} {detail : TaskDetailResponse} (h : s.Reachable)
    (hlater : Transition.Reaches step s s') (hget : getTask s.db s'.db taskId = some detail) :
    (detail.attempts.Pairwise fun x y => x.attemptNo < y.attemptNo) ∧
    (∀ info, info ∈ detail.attempts ↔ ∃ a ∈ s'.db.attempts, a.taskId = taskId ∧ a.info = info) ∧
    (detail.attempt ≠ 0 → ∃ info ∈ detail.attempts, info.attemptNo = detail.attempt) ∧
    (detail.state = .pending ∨ detail.state = .scheduled ∨ detail.state = .cancelled →
      detail.attempt = 0) ∧
    (detail.state = .leased → detail.attempt ≠ 0) ∧
    (detail.state = .dead → s.HasDeadLetter taskId) ∧
    (detail.state = .succeeded → ∃ row ∈ s.db.effects, row.taskId = taskId ∧
      (s'.redis.leaseStore.fenceSeq ≤ 2 ^ 53 →
        ∃! info, info ∈ detail.attempts ∧ info.fence = row.fence)) := by
  -- the row is that of the first statement, the attempts are those of the second
  obtain ⟨row, hfind, rfl⟩ := Option.map_eq_some_iff.mp hget
  have hrow : row ∈ s.db.tasks := List.mem_of_find?_eq_some hfind
  obtain rfl : row.id = taskId := by simpa using List.find?_some hfind
  have htells := h.telling.rows row hrow
  have hreach : s'.Reachable := h.trans hlater
  have hinfo : ∀ info, info ∈ (row.detail (s'.db.getAttempts row.id)).attempts ↔
      ∃ a ∈ s'.db.attempts, a.taskId = row.id ∧ a.info = info := by
    intro info
    simp only [TaskRow.detail, List.mem_map, mem_getAttempts, and_assoc]
  refine ⟨?_, hinfo, fun hne => ?_, htells.untouched, htells.leased, htells.dead, fun hstate => ?_⟩
  · exact List.pairwise_map.mpr (hreach.telling.getAttempts_sorted row.id)
  · obtain ⟨a, ha, hid, hno⟩ := hasAttempt_of_reaches hlater (htells.recorded hne)
    exact ⟨a.info, (hinfo _).mpr ⟨a, ha, hid, rfl⟩, hno⟩
  · -- the effect that was there at the first statement has its attempt at the second one
    obtain ⟨effect, heffect, hid⟩ := h.succeeded row hrow hstate
    refine ⟨effect, heffect, hid, fun hseq => ?_⟩
    obtain ⟨a, ⟨ha, hida, hfence⟩, honly⟩ :=
      (hreach.fenceInv hseq).existsUnique_attempt ((effects_grow_of_reaches hlater).subset heffect)
    refine ⟨a.info, ⟨(hinfo _).mpr ⟨a, ha, hida.trans hid, rfl⟩, hfence⟩, ?_⟩
    rintro info ⟨hmem, hinfoFence⟩
    obtain ⟨other, hother, hotherId, rfl⟩ := (hinfo _).mp hmem
    rw [honly other ⟨hother, hotherId.trans hid.symm, hinfoFence⟩]

/-- The theorem at a task whose first attempt fails and whose second one commits between the two
statements: the row names the first attempt, and the answer has both. -/
theorem task_report_between : ∃ (s s' : Sys) (detail : TaskDetailResponse), s.Reachable ∧
    Transition.Reaches step s s' ∧ getTask s.db s'.db ⟨1⟩ = some detail ∧
    detail.state = .leased ∧ detail.attempt = 1 ∧
    detail.attempts.map (fun info => (info.attemptNo, info.outcome)) =
      [(1, some .failed), (2, none)] ∧
    ∃ info ∈ detail.attempts, info.attemptNo = detail.attempt := by
  obtain ⟨s, hrun, hcheck⟩ := Transition.exists_run_of_check step init
    (accept 0 { queue := "q", taskName := "t", payload := .null } ⟨1⟩ ++
      [.deliver "a" 100 "q"] ++ proceeds 0 3)
    (fun s => (Transition.run step s
      ([.handler 0 (.raised "ValueError" "boom")] ++ proceeds 0 4 ++
        [.promote "q" 0, .deliver "a" 100 "q"] ++ proceeds 1 2)).any fun s' =>
      (getTask s.db s'.db ⟨1⟩).any fun detail => detail.state = .leased ∧ detail.attempt = 1 ∧
        detail.attempts.map (fun info => (info.attemptNo, info.outcome)) =
          [(1, some .failed), (2, none)]) (by decide +kernel)
  obtain ⟨s', hrun', hanswer⟩ := (Option.any_eq_true _ _).mp hcheck
  obtain ⟨detail, hdetail, hdata⟩ := (Option.any_eq_true _ _).mp hanswer
  obtain ⟨hstate, hattempt, hattempts⟩ := of_decide_eq_true hdata
  have hlater : Transition.Reaches step s s' := .of_run hrun'
  refine ⟨s, s', detail, .of_run hrun, hlater, hdetail, hstate, hattempt, hattempts, ?_⟩
  exact (task_report (.of_run hrun) hlater hdetail).2.2.1 (by simp [hattempt])

end Sys

end Dtq
