import Dtq.Worker.Loop

/-!
# What a job's step can do

`Job.proceed` is the code; this file inverts it once. `Job.Proceeds` lists the outcomes
of a call that returns, one constructor each, and `Job.Moves` adds the ways in which a
call may fail and the end of a handler. Every invariant of the workers is proved by
cases on these, without looking at the code again.

## Main results

* `Job.proceeds_of_proceed` — a call that returns does one of the listed things
* `Job.Moves.frame` — what no move of a job touches
* `Job.Moves.effects_cases` — the only writer of `effects` is the commit
* `Job.Moves.lease_cases` — the only writer of `fence:seq` is `acquire_lease`
-/

set_option autoImplicit false

namespace Dtq

/-- Where the code goes when a call fails: out of `_process_message`, or into one of the
two exception handlers of `execute`. -/
inductive Pc.Exceptional : Pc → Prop
  | ended : Exceptional .ended
  | abandon (error : String) : Exceptional (.execute (.abandon error))
  | rollback (error : String) : Exceptional (.execute (.rollback error))

namespace Job

/-- A pending call returns. -/
inductive Proceeds (stores : Stores) (locks : Locks) (job : Job) : Stores → Job → Prop
  | closedPrior (now : ℚ) (hpc : job.pc = .closePrior) :
      Proceeds stores locks job
        { stores with
          db := stores.db.closeAttempt job.envelope.taskId job.envelope.attempt .leaseLost
            none none now }
        job.adopted
  /-- somebody else holds the lease -/
  | refused (store : LeaseStore) (hpc : job.pc = .execute .acquireLease)
      (hacquire : stores.redis.leaseStore.acquireLease job.taskText job.workerId job.leaseMs =
        (store, 0)) :
      Proceeds stores locks job { stores with redis := stores.redis.withLeases store }
        (job.returns false (some "LeaseAcquireError: already held"))
  | acquired (store : LeaseStore) (fence : ℕ) (hpc : job.pc = .execute .acquireLease)
      (hacquire : stores.redis.leaseStore.acquireLease job.taskText job.workerId job.leaseMs =
        (store, fence)) (hfence : fence ≠ 0) :
      Proceeds stores locks job { stores with redis := stores.redis.withLeases store }
        ({ job with fence := fence }.goto .recordAttempt)
  | recorded (hpc : job.pc = .execute .recordAttempt)
      (hlock : locks.updating job.envelope.taskId = false)
      (htask : ∃ task ∈ stores.db.tasks, task.id = job.envelope.taskId)
      (hnew : ∀ other ∈ stores.db.attempts,
        ¬ (other.taskId = job.envelope.taskId ∧ other.attemptNo = job.envelope.attemptNo)) :
      Proceeds stores locks job
        { stores with
          db := Db.updateTaskState
            { stores.db with attempts := stores.db.attempts ++ [job.attemptRow] }
            job.envelope.taskId .leased (some job.envelope.attemptNo) }
        (job.goto .startHandler)
  | abandoned (error : String) (hpc : job.pc = .execute (.abandon error)) :
      Proceeds stores locks job (job.release stores) (job.returns false (some error))
  | handlerStarted (hpc : job.pc = .execute .startHandler) :
      Proceeds stores locks job stores ({ job with started := true }.goto .handlerRunning)
  | foundAbsent (result : Option Json) (hpc : job.pc = .execute (.selectEffect result))
      (hnone : ¬ stores.db.HasEffect job.key) :
      Proceeds stores locks job stores (job.goto (.insertEffect result))
  | foundPresent (result : Option Json) (row : EffectRow)
      (hpc : job.pc = .execute (.selectEffect result))
      (hrow : stores.db.findEffect job.key = some row) (hle : row.fence ≤ job.fence) :
      Proceeds stores locks job stores (job.goto (.commitSuccess result false))
  | foundNewer (result : Option Json) (row : EffectRow)
      (hpc : job.pc = .execute (.selectEffect result))
      (hrow : stores.db.findEffect job.key = some row) (hlt : job.fence < row.fence) :
      Proceeds stores locks job stores
        (job.goto (.rollback (Db.fenceRejectedText job.key row.fence job.fence)))
  | inserted (result : Option Json) (hpc : job.pc = .execute (.insertEffect result))
      (hnone : ¬ stores.db.HasEffect job.key) (hlock : locks.inserting job.key = false) :
      Proceeds stores locks job stores (job.goto (.commitSuccess result true))
  | committedEffect (result : Option Json) (now : ℚ)
      (hpc : job.pc = .execute (.commitSuccess result true))
      (hlock : locks.updating job.envelope.taskId = false) :
      Proceeds stores locks job
        { stores with
          db := ((stores.db.insertEffect (job.effectRow result)).updateTaskState
            job.envelope.taskId .succeeded none).closeAttempt
              job.envelope.taskId job.envelope.attemptNo .succeeded none none now }
        ({ job with committed := true }.goto (.releaseLease true none))
  | committedNothing (result : Option Json) (now : ℚ)
      (hpc : job.pc = .execute (.commitSuccess result false)) :
      Proceeds stores locks job
        { stores with
          db := stores.db.closeAttempt
            job.envelope.taskId job.envelope.attemptNo .succeeded none none now }
        (job.goto (.releaseLease true none))
  | closedFailed (errorType errorRepr : String) (outcome : AttemptOutcome) (now : ℚ)
      (hpc : job.pc = .execute (.closeFailed errorType errorRepr)) :
      Proceeds stores locks job
        { stores with
          db := stores.db.closeAttempt job.envelope.taskId job.envelope.attemptNo outcome
            (some errorType) (some errorRepr) now }
        (job.goto (.releaseLease false (some errorRepr)))
  | rolledBack (errorRepr : String) (hpc : job.pc = .execute (.rollback errorRepr)) :
      Proceeds stores locks job stores (job.goto (.releaseLease false (some errorRepr)))
  | released (success : Bool) (errorRepr : Option String)
      (hpc : job.pc = .execute (.releaseLease success errorRepr)) :
      Proceeds stores locks job (job.release stores) (job.returns success errorRepr)
  | ackedSuccess (errorRepr : Option String) (hpc : job.pc = .returned true errorRepr) :
      Proceeds stores locks job (job.onQueue stores (·.ack job.msgId)) { job with pc := .ended }
  | scheduledRetry (errorRepr : Option String) (runAt : ℚ)
      (hpc : job.pc = .returned false errorRepr) (hretry : job.retries errorRepr = true) :
      Proceeds stores locks job
        (job.onQueue stores (·.schedule job.envelope.nextAttempt runAt)) { job with pc := .ack }
  | deadLettered (errorRepr : Option String) (hpc : job.pc = .returned false errorRepr)
      (hretry : job.retries errorRepr = false) :
      Proceeds stores locks job
        (job.onQueue stores (·.deadLetter job.envelope (deadLetterReason errorRepr)))
        { job with pc := .markDead }
  | markedDead (hpc : job.pc = .markDead)
      (hlock : locks.updating job.envelope.taskId = false) :
      Proceeds stores locks job
        { stores with db := stores.db.updateTaskState job.envelope.taskId .dead none }
        { job with pc := .ack }
  | acked (hpc : job.pc = .ack) :
      Proceeds stores locks job (job.onQueue stores (·.ack job.msgId)) { job with pc := .ended }

variable {stores stores' : Stores} {locks : Locks} {job job' : Job}

/-- The calls of `execute` that return do one of the listed things. -/
theorem proceeds_of_executeOk {now : ℚ} {pc : ExecutePc} {out : Stores × Job}
    (hpc : job.pc = .execute pc) (h : job.executeOk stores locks now pc = some out) :
    job.Proceeds stores locks out.1 out.2 := by
  cases pc with
  | acquireLease =>
    rcases hacquire : stores.redis.leaseStore.acquireLease job.taskText job.workerId job.leaseMs
      with ⟨store, fence⟩
    simp only [executeOk, hacquire] at h
    split_ifs at h with hzero <;> obtain rfl := Option.some.inj h
    · subst hzero
      exact .refused store hpc hacquire
    · exact .acquired store fence hpc hacquire hzero
  | recordAttempt =>
    simp only [executeOk] at h
    split_ifs at h with hlock
    -- the foreign key and the unique key of `attempts` were checked
    obtain ⟨db, hdb, rfl⟩ := Option.map_eq_some_iff.mp h
    obtain ⟨htask, hnew, rfl⟩ := Db.createAttempt_eq_some hdb
    exact .recorded hpc (by simpa using hlock) htask hnew
  | abandon error =>
    obtain rfl := Option.some.inj h
    exact .abandoned error hpc
  | startHandler =>
    obtain rfl := Option.some.inj h
    exact .handlerStarted hpc
  | handlerRunning => simp [executeOk] at h
  | selectEffect result =>
    simp only [executeOk] at h
    -- the three outcomes of the lookup: no row, an older one, a newer one
    cases hrow : stores.db.findEffect job.key with
    | none =>
      have hnone := Db.findEffect_eq_none_iff.mp hrow
      rw [Db.checkEffect_eq_absent_iff.mpr hnone] at h
      obtain rfl := Option.some.inj h
      exact .foundAbsent result hpc hnone
    | some row =>
      simp only [Db.checkEffect, hrow] at h
      split_ifs at h with hlt <;> obtain rfl := Option.some.inj h
      · exact .foundNewer result row hpc hrow hlt
      · exact .foundPresent result row hpc hrow (by omega)
  | insertEffect result =>
    simp only [executeOk] at h
    split_ifs at h with hbusy
    obtain rfl := Option.some.inj h
    rw [not_or] at hbusy
    exact .inserted result hpc hbusy.1 (by simpa using hbusy.2)
  | commitSuccess result committed =>
    cases committed with
    | true =>
      simp only [executeOk] at h
      split_ifs at h with hlock
      obtain rfl := Option.some.inj h
      exact .committedEffect result now hpc (by simpa using hlock)
    | false =>
      obtain rfl := Option.some.inj h
      exact .committedNothing result now hpc
  | closeFailed errorType errorRepr =>
    obtain rfl := Option.some.inj h
    exact .closedFailed errorType errorRepr _ now hpc
  | rollback errorRepr =>
    obtain rfl := Option.some.inj h
    exact .rolledBack errorRepr hpc
  | releaseLease success errorRepr =>
    obtain rfl := Option.some.inj h
    exact .released success errorRepr hpc

/-- A call that returns does one of the listed things. -/
theorem proceeds_of_proceed {now draw : ℚ} {out : Stores × Job}
    (h : job.proceed stores locks now draw = some out) :
    job.Proceeds stores locks out.1 out.2 := by
  cases hpc : job.pc with
  | closePrior =>
    simp only [proceed, hpc] at h
    obtain rfl := Option.some.inj h
    exact .closedPrior now hpc
  | execute pc =>
    simp only [proceed, hpc] at h
    exact proceeds_of_executeOk hpc h
  | returned success errorRepr =>
    cases success with
    | true =>
      simp only [proceed, hpc] at h
      obtain rfl := Option.some.inj h
      exact .ackedSuccess errorRepr hpc
    | false =>
      simp only [proceed, hpc] at h
      split_ifs at h with hretry
      · obtain ⟨delay, -, rfl⟩ := Option.map_eq_some_iff.mp h
        exact .scheduledRetry errorRepr _ hpc hretry
      · obtain rfl := Option.some.inj h
        exact .deadLettered errorRepr hpc (by simpa using hretry)
  | markDead =>
    simp only [proceed, hpc] at h
    split_ifs at h with hlock
    obtain rfl := Option.some.inj h
    exact .markedDead hpc (by simpa using hlock)
  | ack =>
    simp only [proceed, hpc] at h
    obtain rfl := Option.some.inj h
    exact .acked hpc
  | ended => simp [proceed, hpc] at h

/-- A move of a job: a call returns, or raises after or before it took effect, the
worker dies, or the handler ends. -/
inductive Moves (stores : Stores) (locks : Locks) (job : Job) : Stores → Job → Prop
  | proceeds {stores' : Stores} {job' : Job} (h : Proceeds stores locks job stores' job') :
      Moves stores locks job stores' job'
  | raisedAfter {stores' : Stores} {job' : Job} {pc : Pc}
      (h : Proceeds stores locks job stores' job') (hpc : pc.Exceptional) :
      Moves stores locks job stores' { job' with pc := pc, returned := job.returned }
  | failed {pc : Pc} (hactive : job.Active) (hpc : pc.Exceptional) :
      Moves stores locks job stores { job with pc := pc }
  /-- the reclaim loop swallows the failure of its transaction -/
  | skippedPrior (hpc : job.pc = .closePrior) : Moves stores locks job stores job.adopted
  | handlerEnded {pc : ExecutePc}
      (hpc : job.pc = .execute .handlerRunning ∨ job.pc = .execute .startHandler)
      (hnext : (∃ result, pc = .selectEffect result) ∨ ∃ type text, pc = .closeFailed type text) :
      Moves stores locks job stores (job.goto pc)

/-- A call that raises leads out of the code or into an exception handler, except in the
reclaim loop. -/
theorem raised_cases {message : String} {failed : Job} (h : job.raised message = some failed) :
    job.Active ∧ (job.pc = .closePrior ∧ failed = job.adopted ∨
      ∃ pc : Pc, pc.Exceptional ∧ failed = { job with pc := pc }) := by
  have hactive : job.Active := by
    intro hended
    simp [raised, hended] at h
  refine ⟨hactive, ?_⟩
  cases hpc : job.pc with
  | closePrior =>
    simp only [raised, hpc] at h
    exact Or.inl ⟨rfl, (Option.some.inj h).symm⟩
  | execute pc =>
    right
    simp only [raised, hpc] at h
    cases pc <;> simp only [executeRaised, reduceCtorEq] at h
    case recordAttempt => exact ⟨_, .abandon _, (Option.some.inj h).symm⟩
    case selectEffect | insertEffect | commitSuccess | closeFailed =>
      exact ⟨_, .rollback _, (Option.some.inj h).symm⟩
    case acquireLease | handlerRunning | abandon | rollback | releaseLease =>
      exact ⟨_, .ended, (Option.some.inj h).symm⟩
  | returned success errorRepr | markDead | ack =>
    simp only [raised, hpc] at h
    exact Or.inr ⟨_, .ended, (Option.some.inj h).symm⟩
  | ended => exact absurd hpc hactive

/-- A call that raises after it took effect is a move. -/
theorem moves_of_raisedAfter {message : String} {now draw : ℚ} {failed : Job}
    {out : Stores × Job} (hout : job.proceed stores locks now draw = some out)
    (hfailed : job.raised message = some failed) :
    job.Moves stores locks out.1 { out.2 with pc := failed.pc, returned := failed.returned } := by
  obtain ⟨-, ⟨hpc, rfl⟩ | ⟨pc, hexc, rfl⟩⟩ := raised_cases hfailed
  · -- the reclaim loop goes on as if its transaction had returned
    simp only [proceed, hpc] at hout
    obtain rfl := Option.some.inj hout
    exact .proceeds (.closedPrior now hpc)
  · exact .raisedAfter (proceeds_of_proceed hout) hexc

/-- A call that raises without effect is a move. -/
theorem moves_of_raised {message : String} {failed : Job}
    (h : job.raised message = some failed) : job.Moves stores locks stores failed := by
  obtain ⟨hactive, ⟨hpc, rfl⟩ | ⟨pc, hexc, rfl⟩⟩ := raised_cases h
  · exact .skippedPrior hpc
  · exact .failed hactive hexc

/-- The end of a handler is a move. -/
theorem moves_of_handlerEnds {outcome : HandlerOutcome}
    (h : job.handlerEnds outcome = some job') : job.Moves stores locks stores job' := by
  cases outcome with
  | returned result =>
    simp only [handlerEnds] at h
    split_ifs at h with hpc
    obtain rfl := Option.some.inj h
    exact .handlerEnded (Or.inl hpc) (Or.inl ⟨result, rfl⟩)
  | timedOut | fenceRejected =>
    simp only [handlerEnds] at h
    split_ifs at h with hpc
    obtain rfl := Option.some.inj h
    exact .handlerEnded (Or.inl hpc) (Or.inr ⟨_, _, rfl⟩)
  | raised errorType traceback =>
    simp only [handlerEnds] at h
    split_ifs at h with hpc
    obtain rfl := Option.some.inj h
    exact .handlerEnded (hpc.imp_right And.left) (Or.inr ⟨_, _, rfl⟩)

/-! ### What a move touches -/

/-- The task, the queue and the stream entry of a job never change. -/
theorem Proceeds.frame (h : job.Proceeds stores locks stores' job') :
    job.envelope.SameTask job'.envelope ∧ job'.queue = job.queue ∧ job'.msgId = job.msgId := by
  cases h <;> exact ⟨rfl, rfl, rfl⟩

theorem Moves.frame (h : job.Moves stores locks stores' job') :
    job.envelope.SameTask job'.envelope ∧ job'.queue = job.queue ∧ job'.msgId = job.msgId := by
  cases h with
  | proceeds h | raisedAfter h => exact h.frame
  | failed | skippedPrior | handlerEnded => exact ⟨rfl, rfl, rfl⟩

theorem Moves.key_eq (h : job.Moves stores locks stores' job') : job'.key = job.key :=
  h.frame.1.effectKey_eq.symm

theorem Moves.taskId_eq (h : job.Moves stores locks stores' job') :
    job'.envelope.taskId = job.envelope.taskId :=
  h.frame.1.taskId_eq.symm

/-- Nobody moves after the end. -/
theorem Moves.active (h : job.Moves stores locks stores' job') : job.Active := by
  intro hended
  cases h with
  | proceeds h | raisedAfter h => cases h <;> simp_all
  | failed hactive => exact hactive hended
  | skippedPrior hpc => simp_all
  | handlerEnded hpc => simp_all

/-- The stores change only as some call that took effect changes them. -/
theorem Moves.stores_cases (h : job.Moves stores locks stores' job') :
    stores' = stores ∨ ∃ job'', job.Proceeds stores locks stores' job'' := by
  cases h with
  | proceeds h | raisedAfter h => exact Or.inr ⟨_, h⟩
  | failed | skippedPrior | handlerEnded => exact Or.inl rfl

/-- The only writer of `effects` is the commit of a transaction that inserted a row. -/
theorem Proceeds.effects_cases (h : job.Proceeds stores locks stores' job') :
    stores'.db.effects = stores.db.effects ∧ job'.committed = job.committed ∨
      ∃ result, job.pc = .execute (.commitSuccess result true) ∧
        stores'.db.effects = stores.db.effects ++ [job.effectRow result] ∧
        job'.committed = true ∧ job'.pc = .execute (.releaseLease true none) := by
  cases h with
  | committedEffect result now hpc => exact Or.inr ⟨result, hpc, rfl, rfl, rfl⟩
  | _ => exact Or.inl ⟨rfl, rfl⟩

theorem Moves.effects_cases (h : job.Moves stores locks stores' job') :
    stores'.db.effects = stores.db.effects ∧ job'.committed = job.committed ∨
      ∃ result, job.pc = .execute (.commitSuccess result true) ∧
        stores'.db.effects = stores.db.effects ++ [job.effectRow result] ∧
        job'.committed = true ∧ ∀ key, job'.inserting key = false := by
  cases h with
  | proceeds h =>
    obtain hsame | ⟨result, hpc, heffects, hcommitted, hnext⟩ := h.effects_cases
    · exact Or.inl hsame
    · exact Or.inr ⟨result, hpc, heffects, hcommitted, by simp [inserting, hnext]⟩
  | raisedAfter h hexc =>
    obtain hsame | ⟨result, hpc, heffects, hcommitted, -⟩ := h.effects_cases
    · exact Or.inl hsame
    · refine Or.inr ⟨result, hpc, heffects, hcommitted, fun key => ?_⟩
      cases hexc <;> rfl
  | failed | skippedPrior | handlerEnded => exact Or.inl ⟨rfl, rfl⟩

/-- A committed row stays where it is. -/
theorem Moves.effects_grow (h : job.Moves stores locks stores' job') :
    stores.db.effects <+: stores'.db.effects := by
  obtain ⟨heq, -⟩ | ⟨result, -, heq, -⟩ := h.effects_cases
  · rw [heq]
  · rw [heq]
    exact List.prefix_append _ _

/-- A row of `effects` after a move was there, or the job has just committed it. -/
theorem Moves.mem_effects_cases (h : job.Moves stores locks stores' job') {row : EffectRow}
    (hrow : row ∈ stores'.db.effects) :
    row ∈ stores.db.effects ∨
      ∃ result, job.pc = .execute (.commitSuccess result true) ∧ job'.committed = true ∧
        row = job.effectRow result := by
  obtain ⟨heq, -⟩ | ⟨result, hpc, heq, hcommitted, -⟩ := h.effects_cases
  · exact Or.inl (heq ▸ hrow)
  · rw [heq, List.mem_append, List.mem_singleton] at hrow
    exact hrow.imp_right fun hnew => ⟨result, hpc, hcommitted, hnew⟩

/-- A transaction holds a new row only because its `INSERT` found none, committed or
in flight. -/
theorem Moves.commitSuccess_true_cases (h : job.Moves stores locks stores' job')
    {result : Option Json} (hpc' : job'.pc = .execute (.commitSuccess result true)) :
    job.pc = .execute (.insertEffect result) ∧ stores' = stores ∧
      ¬ stores.db.HasEffect job.key ∧ locks.inserting job.key = false := by
  cases h with
  | proceeds h =>
    cases h with
    | inserted result' hpc hnone hlock =>
      simp only [goto, Pc.execute.injEq, ExecutePc.commitSuccess.injEq, and_true] at hpc'
      subst hpc'
      exact ⟨hpc, rfl, hnone, hlock⟩
    | _ => simp [goto, returns, adopted] at hpc'
  | raisedAfter h hexc | failed hactive hexc => cases hexc <;> simp at hpc'
  | skippedPrior => simp [adopted] at hpc'
  | handlerEnded hpc hnext =>
    obtain ⟨r, rfl⟩ | ⟨type, text, rfl⟩ := hnext <;> simp [goto] at hpc'

/-- The only writer of `fence:seq`, and the only source of a job's fence, is
`acquire_lease`. -/
theorem Proceeds.lease_cases (h : job.Proceeds stores locks stores' job') :
    stores'.redis.leaseStore.fenceSeq = stores.redis.leaseStore.fenceSeq ∧
        job'.fence = job.fence ∨
      job.pc = .execute .acquireLease ∧
        stores'.redis.leaseStore.fenceSeq = stores.redis.leaseStore.fenceSeq + 1 ∧
        job'.fence = NumberText.toDouble (stores.redis.leaseStore.fenceSeq + 1) := by
  cases h with
  | refused store hpc hacquire =>
    rw [LeaseStore.eq_of_acquireLease_zero _ _ _ _ hacquire]
    exact Or.inl ⟨rfl, rfl⟩
  | acquired store fence hpc hacquire hfence =>
    exact Or.inr ⟨hpc, LeaseStore.acquireLease_of_ne_zero _ _ _ _ hacquire hfence⟩
  | abandoned | released => exact Or.inl ⟨by simp [release], rfl⟩
  | _ => exact Or.inl ⟨rfl, rfl⟩

theorem Moves.lease_cases (h : job.Moves stores locks stores' job') :
    stores'.redis.leaseStore.fenceSeq = stores.redis.leaseStore.fenceSeq ∧
        job'.fence = job.fence ∨
      job.pc = .execute .acquireLease ∧
        stores'.redis.leaseStore.fenceSeq = stores.redis.leaseStore.fenceSeq + 1 ∧
        job'.fence = NumberText.toDouble (stores.redis.leaseStore.fenceSeq + 1) := by
  cases h with
  | proceeds h | raisedAfter h => exact h.lease_cases
  | failed | skippedPrior | handlerEnded => exact Or.inl ⟨rfl, rfl⟩

/-- The only statement that adds a row to `attempts` is the one that records the start of
an execution; the others leave every row's identity alone. -/
theorem Moves.attempts_cases (h : job.Moves stores locks stores' job') :
    stores'.db.attempts.map AttemptRow.ident = stores.db.attempts.map AttemptRow.ident ∨
      job.pc = .execute .recordAttempt ∧
        (∀ other ∈ stores.db.attempts,
          ¬ (other.taskId = job.envelope.taskId ∧ other.attemptNo = job.envelope.attemptNo)) ∧
        stores'.db.attempts = stores.db.attempts ++ [job.attemptRow] := by
  obtain rfl | ⟨job'', h⟩ := h.stores_cases
  · exact Or.inl rfl
  · cases h with
    | recorded hpc hlock htask hnew => exact Or.inr ⟨hpc, hnew, rfl⟩
    | closedPrior | committedEffect | committedNothing | closedFailed =>
      exact Or.inl (by simp)
    | _ => exact Or.inl rfl

/-- What is on record in `attempts` stays there. -/
theorem Moves.ident_kept (h : job.Moves stores locks stores' job') :
    ∀ x ∈ stores.db.attempts.map AttemptRow.ident,
      x ∈ stores'.db.attempts.map AttemptRow.ident := by
  intro x hx
  obtain hsame | ⟨-, -, happend⟩ := h.attempts_cases
  · exact hsame ▸ hx
  · rw [happend, List.map_append]
    exact List.mem_append_left _ hx

/-- What is on record in `attempts` after a move was there, or the job has just recorded
its own attempt. -/
theorem Moves.mem_ident_cases (h : job.Moves stores locks stores' job') {x : Uuid × ℕ × ℕ}
    (hx : x ∈ stores'.db.attempts.map AttemptRow.ident) :
    x ∈ stores.db.attempts.map AttemptRow.ident ∨
      job.pc = .execute .recordAttempt ∧ x = job.attemptRow.ident := by
  obtain hsame | ⟨hpc, -, happend⟩ := h.attempts_cases
  · exact Or.inl (hsame ▸ hx)
  · rw [happend, List.map_append, List.mem_append] at hx
    exact hx.imp_right fun hnew => ⟨hpc, List.mem_singleton.mp hnew⟩

/-- The states a job writes into its task's row: leased, succeeded together with the
effect, and dead. -/
theorem Moves.tasks_cases (h : job.Moves stores locks stores' job') :
    (∃ result, job.pc = .execute (.commitSuccess result true) ∧
      stores'.db.effects = stores.db.effects ++ [job.effectRow result] ∧
      stores'.db.tasks = stores.db.tasks.map
        (Db.setState job.envelope.taskId .succeeded none)) ∨
    stores'.db.effects = stores.db.effects ∧
      (stores'.db.tasks = stores.db.tasks ∨
        job.pc = .execute .recordAttempt ∧
          stores'.db.tasks = stores.db.tasks.map
            (Db.setState job.envelope.taskId .leased (some job.envelope.attemptNo)) ∨
        job.pc = .markDead ∧
          stores'.db.tasks = stores.db.tasks.map
            (Db.setState job.envelope.taskId .dead none)) := by
  obtain rfl | ⟨job'', h⟩ := h.stores_cases
  · exact Or.inr ⟨rfl, Or.inl rfl⟩
  · cases h with
    | committedEffect result now hpc => exact Or.inl ⟨result, hpc, rfl, rfl⟩
    | recorded hpc => exact Or.inr ⟨rfl, Or.inr (Or.inl ⟨hpc, rfl⟩)⟩
    | markedDead hpc => exact Or.inr ⟨rfl, Or.inr (Or.inr ⟨hpc, rfl⟩)⟩
    | _ => exact Or.inr ⟨rfl, Or.inl rfl⟩

/-- What a job does to the queues: acknowledge its entry once it is done with it,
schedule a retry, or file a dead letter. -/
theorem Moves.queues_cases (h : job.Moves stores locks stores' job') :
    stores'.redis.queues = stores.redis.queues ∨
      (∃ f : QueueState → QueueState, stores'.redis.queues =
          (stores.redis.modifyQueue job.queue f).queues ∧
        ((job.pc = .ack ∨ ∃ text, job.pc = .returned true text) ∧ f = (·.ack job.msgId) ∨
          (∃ text runAt, job.pc = .returned false text ∧ job.retries text = true ∧
            f = (·.schedule job.envelope.nextAttempt runAt)) ∨
          ∃ text, job.pc = .returned false text ∧
            f = (·.deadLetter job.envelope (deadLetterReason text)))) := by
  obtain rfl | ⟨job'', h⟩ := h.stores_cases
  · exact Or.inl rfl
  · cases h with
    | ackedSuccess text hpc => exact Or.inr ⟨_, rfl, Or.inl ⟨Or.inr ⟨text, hpc⟩, rfl⟩⟩
    | acked hpc => exact Or.inr ⟨_, rfl, Or.inl ⟨Or.inl hpc, rfl⟩⟩
    | scheduledRetry text runAt hpc hretry =>
      exact Or.inr ⟨_, rfl, Or.inr (Or.inl ⟨text, runAt, hpc, hretry, rfl⟩)⟩
    | deadLettered text hpc => exact Or.inr ⟨_, rfl, Or.inr (Or.inr ⟨text, hpc, rfl⟩)⟩
    | _ => exact Or.inl rfl

/-- A job as a delivery or an adoption starts it. -/
structure Starting (job : Job) : Prop where
  pc : job.pc = .closePrior ∨ job.pc = .execute .acquireLease
  fence : job.fence = 0
  started : job.started = false
  committed : job.committed = false
  returned : job.returned = none

theorem Starting.inserting (h : job.Starting) (key : String) : job.inserting key = false := by
  rcases h.pc with hpc | hpc <;> simp [Job.inserting, hpc]

end Job

end Dtq
