import Dtq.System.Moves

/-!
# Effects and attempts

An execution first takes a fence from Redis, then records an attempt under it, then
commits an effect under it. Fences are unique as long as the counter is exact in a Lua
number, so a committed effect names its attempt.

## Main results

* `Sys.Reachable.succeeded` — a succeeded task has an effect
* `Sys.Reachable.fenceInv` — fences of attempts are distinct, and every effect has an
  attempt, while the counter is at most `2 ^ 53`
* `Sys.success_backed` — a success is backed by an effect and by one attempt
-/

set_option autoImplicit false

namespace Dtq

/-- The execution's attempt has been recorded, and its outcome is open. -/
def Pc.Recorded : Pc → Prop
  | .execute pc =>
    match pc with
    | .startHandler | .handlerRunning | .selectEffect _ | .insertEffect _ | .commitSuccess _ _
    | .closeFailed _ _ => True
    | .acquireLease | .recordAttempt | .abandon _ | .rollback _ | .releaseLease _ _ => False
  | .closePrior | .returned _ _ | .markDead | .ack | .ended => False

theorem Pc.Exceptional.not_recorded {pc : Pc} (h : pc.Exceptional) : ¬ pc.Recorded := by
  cases h <;> exact id

namespace Job

variable {job job' : Job} {stores stores' : Stores} {locks : Locks}

/-- The columns of the job's attempt that no update touches. -/
def attemptIdent (job : Job) : Uuid × ℕ × ℕ :=
  (job.envelope.taskId, job.envelope.attemptNo, job.fence)

/-- An attempt is on record because it was, or because it has just been inserted. -/
theorem Moves.recorded_cases (h : job.Moves stores locks stores' job')
    (hrec : job'.pc.Recorded) :
    job'.attemptIdent = job.attemptIdent ∧
      (job.pc.Recorded ∨
        job.pc = .execute .recordAttempt ∧
          stores'.db.attempts = stores.db.attempts ++ [job.attemptRow]) := by
  cases h with
  | proceeds h =>
    cases h with
    | recorded hpc => exact ⟨rfl, Or.inr ⟨hpc, rfl⟩⟩
    | handlerStarted hpc | foundAbsent _ hpc | foundPresent _ _ hpc | inserted _ hpc =>
      exact ⟨rfl, Or.inl (by simp [hpc, Pc.Recorded])⟩
    | _ => simp [goto, returns, adopted, Pc.Recorded] at hrec
  | raisedAfter h hexc | failed hactive hexc => exact absurd hrec hexc.not_recorded
  | skippedPrior => simp [adopted, Pc.Recorded] at hrec
  | handlerEnded hpc hnext =>
    refine ⟨rfl, Or.inl ?_⟩
    rcases hpc with hpc | hpc <;> simp [hpc, Pc.Recorded]

/-- A job is about to record its attempt because it has just been given a fence. -/
theorem Moves.recordAttempt_cases (h : job.Moves stores locks stores' job')
    (hpc' : job'.pc = .execute .recordAttempt) :
    stores'.db = stores.db ∧
      stores'.redis.leaseStore.fenceSeq = stores.redis.leaseStore.fenceSeq + 1 ∧
      job'.fence = NumberText.toDouble (stores.redis.leaseStore.fenceSeq + 1) := by
  cases h with
  | proceeds h =>
    cases h with
    | acquired store fence hpc hacquire hfence =>
      exact ⟨rfl, LeaseStore.acquireLease_of_ne_zero _ _ _ _ hacquire hfence⟩
    | _ => simp [goto, returns, adopted] at hpc'
  | raisedAfter h hexc | failed hactive hexc => cases hexc <;> simp at hpc'
  | skippedPrior => simp [adopted] at hpc'
  | handlerEnded hpc hnext =>
    obtain ⟨r, rfl⟩ | ⟨type, text, rfl⟩ := hnext <;> simp [goto] at hpc'

end Job

namespace Sys

variable {s s' : Sys} {a : Action}

/-! ### Succeeded tasks have effects -/

/-- An update to another state keeps succeeded rows only as they are. -/
theorem mem_of_mem_setState {rows : List TaskRow} {taskId : Uuid} {state : TaskState}
    {attempt : Option ℕ} {task : TaskRow} (hstate : task.state = .succeeded)
    (hne : state ≠ .succeeded) (hmem : task ∈ rows.map (Db.setState taskId state attempt)) :
    task ∈ rows := by
  obtain ⟨old, hold, rfl⟩ := List.mem_map.mp hmem
  simp only [Db.setState] at hstate ⊢
  split at hstate
  · exact absurd hstate hne
  · simp only [*, if_false]

/-- The updates of a requeue request keep succeeded rows only as they are. -/
theorem mem_of_mem_foldl_pending {task : TaskRow} (hstate : task.state = .succeeded)
    (ids : List Uuid) (db : Db)
    (hmem : task ∈ (ids.foldl (fun db t => db.updateTaskState t .pending (some 0)) db).tasks) :
    task ∈ db.tasks := by
  induction ids generalizing db with
  | nil => exact hmem
  | cons t ids ih => exact mem_of_mem_setState hstate (by simp) (ih _ hmem)

/-- A task that is succeeded after a step was so before, or has just got its effect. -/
theorem Moves.succeeded_cases (h : s.Moves a s') {task : TaskRow} (htask : task ∈ s'.db.tasks)
    (hstate : task.state = .succeeded) :
    (∃ old ∈ s.db.tasks, old.id = task.id ∧ old.state = .succeeded) ∨
      ∃ row ∈ s'.db.effects, row.taskId = task.id := by
  cases h with
  | @job _ i job job' stores' ha hjob h =>
    obtain ⟨result, hpc, heffects, hmap⟩ | ⟨-, hsame | ⟨-, hmap⟩ | ⟨-, hmap⟩⟩ := h.tasks_cases
    · rw [setJob_db, hmap] at htask
      obtain ⟨old, hold, rfl⟩ := List.mem_map.mp htask
      by_cases hid : old.id = job.envelope.taskId
      · -- this is the task whose effect has just been committed
        refine Or.inr ⟨job.effectRow result, ?_, ?_⟩
        · rw [setJob_db, heffects]
          exact List.mem_append_right _ (List.mem_singleton.mpr rfl)
        · rw [Db.setState_id, hid, Job.effectRow]
      · rw [Db.setState, if_neg hid] at hstate ⊢
        exact Or.inl ⟨old, hold, rfl, hstate⟩
    · rw [setJob_db, hsame] at htask
      exact Or.inl ⟨task, htask, rfl, hstate⟩
    · rw [setJob_db, hmap] at htask
      exact Or.inl ⟨task, mem_of_mem_setState hstate (by simp) htask, rfl, hstate⟩
    · rw [setJob_db, hmap] at htask
      exact Or.inl ⟨task, mem_of_mem_setState hstate (by simp) htask, rfl, hstate⟩
  | post ha hpost h =>
    rcases h.db_cases with hdb | ⟨-, hdb⟩
    · rw [setPost_db, hdb] at htask
      exact Or.inl ⟨task, htask, rfl, hstate⟩
    · rw [setPost_db, hdb] at htask
      rcases List.mem_append.mp htask with hold | hnew
      · exact Or.inl ⟨task, hold, rfl, hstate⟩
      · -- a new row is pending or scheduled
        obtain rfl := List.mem_singleton.mp hnew
        simp only [CreateTaskRequest.row] at hstate
        split at hstate <;> simp at hstate
  | @requeue i reply requeue requeue' stores' ha hrequeue h =>
    rcases h.db_cases with hdb | hdb <;> rw [setRequeue_db, hdb] at htask
    · exact Or.inl ⟨task, htask, rfl, hstate⟩
    · exact Or.inl ⟨task, mem_of_mem_foldl_pending hstate _ _ htask, rfl, hstate⟩
  | cancelled =>
    obtain ⟨old, hold, rfl⟩ := List.mem_map.mp htask
    split at hstate
    · simp at hstate
    · exact Or.inl ⟨old, hold, by simp [*], hstate⟩
  | delivered | adopted | posted | produced | requeued | leases | promoted =>
    exact Or.inl ⟨task, htask, rfl, hstate⟩

/-- In every reachable state, a succeeded task has an effect. -/
theorem Reachable.succeeded (h : s.Reachable) :
    ∀ task ∈ s.db.tasks, task.state = .succeeded → ∃ row ∈ s.db.effects, row.taskId = task.id := by
  apply Transition.Reaches.invariant (I := fun s : Sys => ∀ task ∈ s.db.tasks,
    task.state = .succeeded → ∃ row ∈ s.db.effects, row.taskId = task.id) ?_ h
  · simp [init, Db.empty]
  · intro s a s' hinv hstep task htask hstate
    rcases (moves_of_step hstep).succeeded_cases htask hstate with
      ⟨old, hold, hid, hsucc⟩ | heffect
    · obtain ⟨row, hrow, hrowId⟩ := hinv old hold hsucc
      exact ⟨row, (effects_grow_of_step hstep).subset hrow, hrowId.trans hid⟩
    · exact heffect

/-! ### Fences name attempts -/

/-- What fences have been given out and where they are recorded. -/
structure FenceInv (s : Sys) : Prop where
  bounded : ∀ job ∈ s.jobs, job.fence ≤ s.redis.leaseStore.fenceSeq
  /-- two jobs that have acquired a lease have different fences -/
  apart : Indexed.Apart (fun a b : Job => a.fence = b.fence → a.fence = 0) s.jobs
  rows : ∀ x ∈ s.db.attempts.map AttemptRow.ident, x.2.2 ≤ s.redis.leaseStore.fenceSeq
  /-- a fence whose attempt is about to be recorded is not yet in the table -/
  fresh : ∀ job ∈ s.jobs, job.pc = .execute .recordAttempt →
    job.fence ≠ 0 ∧ ∀ x ∈ s.db.attempts.map AttemptRow.ident, x.2.2 ≠ job.fence
  distinct : ((s.db.attempts.map AttemptRow.ident).map fun x => x.2.2).Nodup
  recorded : ∀ job ∈ s.jobs, job.pc.Recorded →
    job.attemptIdent ∈ s.db.attempts.map AttemptRow.ident
  effects : ∀ row ∈ s.db.effects, ∃ x ∈ s.db.attempts.map AttemptRow.ident,
    x.1 = row.taskId ∧ x.2.2 = row.fence

theorem fenceInv_init : FenceInv init where
  bounded := by simp [init]
  apart := Indexed.Apart.nil
  rows := by simp [init, Db.empty]
  fresh := by simp [init]
  distinct := by simp [init, Db.empty]
  recorded := by simp [init]
  effects := by simp [init, Db.empty]

/-- The counter never falls. -/
theorem fenceSeq_le_of_step (hstep : s.step a = some s') :
    s.redis.leaseStore.fenceSeq ≤ s'.redis.leaseStore.fenceSeq := by
  rcases (moves_of_step hstep).worker_cases with
    ⟨i, job, job', stores', -, -, hmove, rfl⟩ | ⟨job, -, -, -, hstore⟩ | ⟨-, -, -, hseq⟩
  · obtain ⟨hseq, -⟩ | ⟨-, hseq, -⟩ := hmove.lease_cases
    · exact hseq.ge
    · exact (Nat.le_succ _).trans hseq.ge
  · rw [hstore]
  · exact hseq.ge

section JobMove

variable {i : ℕ} {job job' : Job} {stores' : Stores}

/-- While the counter is exact, a move leaves fences alone or gives the job the next one. -/
theorem fence_cases (hmove : job.Moves s.stores s.locks stores' job')
    (hseq : stores'.redis.leaseStore.fenceSeq ≤ 2 ^ 53) :
    stores'.redis.leaseStore.fenceSeq = s.redis.leaseStore.fenceSeq ∧ job'.fence = job.fence ∨
      stores'.redis.leaseStore.fenceSeq = s.redis.leaseStore.fenceSeq + 1 ∧
        job'.fence = s.redis.leaseStore.fenceSeq + 1 := by
  obtain hsame | ⟨-, hnext, hfence⟩ := hmove.lease_cases
  · exact Or.inl hsame
  · refine Or.inr ⟨hnext, ?_⟩
    rw [stores_redis] at hnext hfence
    rw [hfence, NumberText.toDouble_of_le (hnext ▸ hseq)]

/-- The fence of an attempt that is about to be recorded stays out of the table. -/
theorem FenceInv.fresh_job (h : s.FenceInv) (hjob : s.jobs[i]? = some job)
    (hmove : job.Moves s.stores s.locks stores' job')
    (hseq : stores'.redis.leaseStore.fenceSeq ≤ 2 ^ 53) :
    ∀ other ∈ (s.setJob i stores' job').jobs, other.pc = .execute .recordAttempt →
      other.fence ≠ 0 ∧ ∀ x ∈ stores'.db.attempts.map AttemptRow.ident, x.2.2 ≠ other.fence := by
  apply Indexed.forall_mem_set_of_ne
  · intro j other hj hother hpc
    obtain ⟨hne, hnew⟩ := h.fresh other (List.mem_of_getElem? hother) hpc
    refine ⟨hne, fun x hx heq => ?_⟩
    rcases hmove.mem_ident_cases hx with hx | ⟨-, rfl⟩
    · exact hnew x hx heq
    · exact hne (h.apart hother hjob hj heq.symm)
  · intro hpc'
    obtain ⟨hdb, hgrown, -⟩ := hmove.recordAttempt_cases hpc'
    rw [stores_redis] at hgrown
    -- the fence is above everything the table holds
    have hfence : job'.fence = s.redis.leaseStore.fenceSeq + 1 := by
      have hcases := fence_cases hmove hseq
      omega
    refine ⟨by omega, fun x hx => ?_⟩
    rw [hdb] at hx
    have hbound := h.rows x hx
    omega

/-- A new attempt has a fence of its own. -/
theorem FenceInv.distinct_job (h : s.FenceInv) (hmem : job ∈ s.jobs)
    (hmove : job.Moves s.stores s.locks stores' job') :
    ((stores'.db.attempts.map AttemptRow.ident).map fun x => x.2.2).Nodup := by
  obtain hsame | ⟨hpc, -, happend⟩ := hmove.attempts_cases
  · rw [hsame]
    exact h.distinct
  · rw [happend, List.map_append, List.map_append, List.nodup_append]
    refine ⟨h.distinct, by simp, fun f hf g hg heq => ?_⟩
    obtain ⟨x, hx, rfl⟩ := List.mem_map.mp hf
    obtain rfl : g = job.fence := by simpa [AttemptRow.ident, Job.attemptRow] using hg
    exact (h.fresh job hmem hpc).2 x hx heq

/-- Every effect has its attempt on record. -/
theorem FenceInv.effects_job (h : s.FenceInv) (hmem : job ∈ s.jobs)
    (hmove : job.Moves s.stores s.locks stores' job') :
    ∀ row ∈ stores'.db.effects, ∃ x ∈ stores'.db.attempts.map AttemptRow.ident,
      x.1 = row.taskId ∧ x.2.2 = row.fence := by
  intro row hrow
  rcases hmove.mem_effects_cases hrow with hold | ⟨result, hpc, -, rfl⟩
  · obtain ⟨x, hx, hmatch⟩ := h.effects row hold
    exact ⟨x, hmove.ident_kept x hx, hmatch⟩
  · -- the job that commits has its attempt on record
    have hrec : job.pc.Recorded := by simp [hpc, Pc.Recorded]
    exact ⟨job.attemptIdent, hmove.ident_kept _ (h.recorded job hmem hrec), rfl, rfl⟩

end JobMove

/-- A move of one job keeps fences unique while the counter is exact. -/
theorem FenceInv.job {i : ℕ} {job job' : Job} {stores' : Stores} (h : s.FenceInv)
    (hjob : s.jobs[i]? = some job) (hmove : job.Moves s.stores s.locks stores' job')
    (hseq : stores'.redis.leaseStore.fenceSeq ≤ 2 ^ 53) :
    (s.setJob i stores' job').FenceInv := by
  have hmem : job ∈ s.jobs := List.mem_of_getElem? hjob
  have hlease := fence_cases hmove hseq
  have hle : s.redis.leaseStore.fenceSeq ≤ stores'.redis.leaseStore.fenceSeq := by omega
  refine ⟨?_, ?_, ?_, h.fresh_job hjob hmove hseq, h.distinct_job hmem hmove, ?_,
    h.effects_job hmem hmove⟩
  · apply Indexed.forall_mem_set
    · exact fun other hother => (h.bounded other hother).trans hle
    · have hold := h.bounded job hmem
      rw [setJob_redis]
      omega
  · apply h.apart.set fun x y hxy heq => heq ▸ hxy heq.symm
    intro j other hj hother heq
    have hbound := h.bounded other (List.mem_of_getElem? hother)
    rcases hlease with ⟨-, hfence⟩ | ⟨-, hfence⟩
    · rw [hfence] at heq ⊢
      exact h.apart hjob hother hj.symm heq
    · -- the new fence is above the other one
      omega
  · intro x hx
    rw [setJob_redis]
    rcases hmove.mem_ident_cases hx with hx | ⟨-, rfl⟩
    · exact (h.rows x hx).trans hle
    · exact (h.bounded job hmem).trans hle
  · apply Indexed.forall_mem_set
    · exact fun other hother hrec => hmove.ident_kept _ (h.recorded other hother hrec)
    · intro hrec
      obtain ⟨hident, hbefore | ⟨-, happend⟩⟩ := hmove.recorded_cases hrec
      · rw [hident]
        exact hmove.ident_kept _ (h.recorded job hmem hbefore)
      · rw [hident, setJob_db, happend, List.map_append]
        exact List.mem_append_right _ (List.mem_singleton.mpr rfl)

theorem FenceInv.step (h : s.FenceInv) (hstep : s.step a = some s')
    (hseq : s'.redis.leaseStore.fenceSeq ≤ 2 ^ 53) : s'.FenceInv := by
  rcases (moves_of_step hstep).worker_cases with
    ⟨i, job, job', stores', -, hjob, hmove, rfl⟩ | ⟨job, hnew, hjobs, hdb, hstore⟩ |
      ⟨hjobs, heffects, hattempts, hsame⟩
  · exact h.job hjob hmove hseq
  · refine ⟨?_, ?_, ?_, ?_, ?_, ?_, ?_⟩ <;> simp only [hjobs, hdb, hstore]
    · exact Indexed.forall_mem_append_singleton h.bounded (by simp [hnew.fence])
    · apply h.apart.append_singleton fun x y hxy heq => heq ▸ hxy heq.symm
      exact fun _ _ _ => hnew.fence
    · exact h.rows
    · apply Indexed.forall_mem_append_singleton h.fresh
      intro hpc
      rcases hnew.pc with hpc' | hpc' <;> simp [hpc'] at hpc
    · exact h.distinct
    · apply Indexed.forall_mem_append_singleton h.recorded
      intro hrec
      rcases hnew.pc with hpc' | hpc' <;> simp [hpc', Pc.Recorded] at hrec
    · exact h.effects
  · refine ⟨?_, ?_, ?_, ?_, ?_, ?_, ?_⟩ <;> simp only [hjobs, heffects, hattempts, hsame]
    exacts [h.bounded, h.apart, h.rows, h.fresh, h.distinct, h.recorded, h.effects]

/-- Fences are unique in every reachable state whose counter is still exact. -/
theorem Reachable.fenceInv (h : s.Reachable) (hseq : s.redis.leaseStore.fenceSeq ≤ 2 ^ 53) :
    s.FenceInv := by
  apply Transition.Reaches.invariant (I := fun s : Sys =>
    s.redis.leaseStore.fenceSeq ≤ 2 ^ 53 → s.FenceInv) ?_ h (fun _ => fenceInv_init) hseq
  -- the bound at the end of a run is a bound all along
  intro s a s' hinv hstep hseq'
  exact (hinv ((fenceSeq_le_of_step hstep).trans hseq')).step hstep hseq'

/-- **Success is backed by an effect and an attempt.** In every reachable state of the
whole system in which `fence:seq` has not passed `2 ^ 53`: every succeeded task has an
effect, the fences of all attempts are distinct, and every effect matches exactly one
attempt in task and fence. -/
theorem success_backed (h : s.Reachable) (hseq : s.redis.leaseStore.fenceSeq ≤ 2 ^ 53) :
    (∀ task ∈ s.db.tasks, task.state = .succeeded →
      ∃ row ∈ s.db.effects, row.taskId = task.id) ∧
    (s.db.attempts.map AttemptRow.fence).Nodup ∧
    ∀ row ∈ s.db.effects, ∃! i : ℕ, ∃ attempt : AttemptRow, s.db.attempts[i]? = some attempt ∧
      attempt.taskId = row.taskId ∧ attempt.fence = row.fence := by
  have hinv := h.fenceInv hseq
  have hdistinct : (s.db.attempts.map AttemptRow.fence).Nodup := by
    have hnodup := hinv.distinct
    rwa [List.map_map] at hnodup
  refine ⟨h.succeeded, hdistinct, fun row hrow => ?_⟩
  obtain ⟨x, hx, htask, hfence⟩ := hinv.effects row hrow
  obtain ⟨attempt, hattempt, rfl⟩ := List.mem_map.mp hx
  obtain ⟨i, hi⟩ := List.mem_iff_getElem?.mp hattempt
  refine ⟨i, ⟨attempt, hi, htask, hfence⟩, ?_⟩
  rintro j ⟨other, hj, -, hotherFence⟩
  -- the fence alone determines the position
  obtain ⟨hjlt, hjget⟩ := List.getElem?_eq_some_iff.mp hj
  obtain ⟨hilt, higet⟩ := List.getElem?_eq_some_iff.mp hi
  have hjlt' : j < (s.db.attempts.map AttemptRow.fence).length := by simpa using hjlt
  have hilt' : i < (s.db.attempts.map AttemptRow.fence).length := by simpa using hilt
  have hsame : (s.db.attempts.map AttemptRow.fence)[j] =
      (s.db.attempts.map AttemptRow.fence)[i] := by
    rw [List.getElem_map, List.getElem_map, hjget, higet, hotherFence]
    exact hfence.symm
  exact hdistinct.getElem_inj_iff.mp hsame

/-- The theorem at a run in which a task is executed and its effect committed. -/
theorem success_backed_once : ∃ s : Sys, s.Reachable ∧ s.db.effects.length = 1 ∧
    s.db.attempts.length = 1 ∧ (s.db.attempts.map AttemptRow.fence).Nodup := by
  obtain ⟨s, hrun, heffects, hattempts, hseq⟩ := Transition.exists_run_of_check step init
    (accept 0 { queue := "q", taskName := "t", payload := .null } ⟨1⟩ ++
      [.deliver "a" 100 "q"] ++ proceeds 0 3 ++ [.handler 0 (.returned none)] ++ proceeds 0 3)
    (fun s => s.db.effects.length = 1 ∧ s.db.attempts.length = 1 ∧
      s.redis.leaseStore.fenceSeq ≤ 2 ^ 53) (by decide)
  have hreach : s.Reachable := .of_run hrun
  exact ⟨s, hreach, heffects, hattempts, (success_backed hreach hseq).2.1⟩

/-! ### Past the exact range

Nothing in the code stops the counter. Adopting a pending entry again and again, with the
lease expiring each time, brings it to any value, and the first value that a Lua number
cannot hold is rounded down to the fence before it. -/

/-- A pending entry whose lease is free can be adopted, and the new worker comes to the point
of recording an attempt. It fails to close the prior one, so that the tables stay as they
are. -/
theorem exists_acquired {queue : String} {p : Pending} {e : TaskEnvelope}
    (hp : p ∈ (s.redis.queues queue).pending)
    (he : (s.redis.queues queue).stream[p.id]? = some e)
    (hfree : s.redis.leaseStore.leases e.taskId.str = none) :
    ∃ (s' : Sys) (i : ℕ) (job : Job), Transition.ReachesWhen step WithoutRequeue s s' ∧
      s'.jobs[i]? = some job ∧ job.pc = .execute .recordAttempt ∧
      job.envelope = e.nextAttempt ∧
      job.fence = NumberText.toDouble (s.redis.leaseStore.fenceSeq + 1) ∧
      s'.redis.leaseStore.fenceSeq = s.redis.leaseStore.fenceSeq + 1 ∧ s'.db = s.db ∧
      s'.requeues = s.requeues ∧
      (∀ text ≠ e.taskId.str, s'.redis.leaseStore.leases text = s.redis.leaseStore.leases text) ∧
      (s'.redis.queues queue).stream = (s.redis.queues queue).stream ∧
      ∀ old ∈ (s.redis.queues queue).pending,
        ∃ new ∈ (s'.redis.queues queue).pending, new.id = old.id := by
  set job : Job := deliveredJob "w" 1 queue p.id e .closePrior with hjob
  set q : QueueState :=
    { s.redis.queues queue with
      pending := (s.redis.queues queue).pending.map fun old =>
        if old.id = p.id then { old with consumer := "w" } else old } with hq
  -- adopt, fail to close the prior attempt, acquire
  set s₁ := s.spawn queue q job with hs₁
  have hpending : ∃ old ∈ (s.redis.queues queue).pending, old.id = p.id := ⟨p, hp, rfl⟩
  have hadopt : s.step (.adopt "w" 1 queue p.id) = some s₁ := by
    simp only [Sys.step, QueueState.reclaim, if_pos hpending, he, Option.map_some]
    rfl
  have hi₁ : s₁.jobs[s.jobs.length]? = some job := by simp [hs₁]
  set s₂ := s₁.setJob s.jobs.length s₁.stores job.adopted with hs₂
  have hskip : s₁.step (.jobStep s.jobs.length (.raise false 0 0 "")) = some s₂ := by
    simp only [Sys.step, hi₁, Option.bind_some, stepJob]
    rfl
  have hi₂ : s₂.jobs[s.jobs.length]? = some job.adopted := Indexed.getElem?_set_of_eq hi₁
  -- the key is free, so the acquisition returns the next value of the counter
  obtain ⟨store, hacquire, hseq, hothers⟩ : ∃ store : LeaseStore,
      s.redis.leaseStore.acquireLease e.taskId.str "w" 1 =
        (store, NumberText.toDouble (s.redis.leaseStore.fenceSeq + 1)) ∧
      store.fenceSeq = s.redis.leaseStore.fenceSeq + 1 ∧
      ∀ text ≠ e.taskId.str, store.leases text = s.redis.leaseStore.leases text := by
    refine ⟨_, LeaseStore.acquireLease_of_free _ _ _ _ hfree, rfl, ?_⟩
    exact fun text hne => Function.update_of_ne hne _ _
  set last : Job := { job.adopted with
    fence := NumberText.toDouble (s.redis.leaseStore.fenceSeq + 1) }.goto .recordAttempt
    with hlast
  have hproceed : job.adopted.proceed s₂.stores s₂.locks 0 0 =
      some ({ s₂.stores with redis := s₂.redis.withLeases store }, last) := by
    have hpos := NumberText.toDouble_pos (Nat.succ_pos s.redis.leaseStore.fenceSeq)
    show job.adopted.executeOk s₂.stores s₂.locks 0 .acquireLease = _
    have hacquire' : s₂.stores.redis.leaseStore.acquireLease job.adopted.taskText
        job.adopted.workerId job.adopted.leaseMs =
          (store, NumberText.toDouble (s.redis.leaseStore.fenceSeq + 1)) := hacquire
    simp only [Job.executeOk, hacquire']
    exact if_neg hpos.ne'
  have hqueue : (s₂.redis.queues queue) = q := by
    simp only [hs₂, setJob_redis, stores_redis, hs₁, spawn_redis, Redis.modifyQueue_self]
  have hreach : Transition.ReachesWhen step WithoutRequeue s s₂ :=
    ((Transition.ReachesWhen.refl s).tail (a := .adopt "w" 1 queue p.id) rfl hadopt).tail
      (a := .jobStep s.jobs.length (.raise false 0 0 "")) rfl hskip
  refine ⟨s₂.setJob s.jobs.length { s₂.stores with redis := s₂.redis.withLeases store } last,
    s.jobs.length, last,
    hreach.tail (a := .jobStep s.jobs.length (.ok 0 0)) rfl (step_of_proceed hi₂ hproceed),
    Indexed.getElem?_set_of_eq hi₂, rfl, rfl, rfl, hseq, rfl, rfl, hothers, ?_, fun old hold => ?_⟩
  · rw [setJob_redis, Redis.withLeases_queues, hqueue]
  · rw [setJob_redis, Redis.withLeases_queues, hqueue]
    refine ⟨_, List.mem_map_of_mem hold, ?_⟩
    split <;> rfl

/-- The id of one of two tasks. -/
def nthId (k : ℕ) : Uuid := ⟨BitVec.ofNat 128 k⟩

/-- Two tasks have rows and pending entries, and nothing is locked. -/
structure Ready (s : Sys) : Prop where
  requeues : s.requeues = []
  pending : ∀ k < 2, ∃ p ∈ (s.redis.queues "q").pending, p.id = k
  stream : ∀ k < 2, ((s.redis.queues "q").stream[k]?).map TaskEnvelope.taskId = some (nthId k)
  tasks : ∀ k < 2, ∃ task ∈ s.db.tasks, task.id = nthId k

instance (s : Sys) : Decidable s.Ready :=
  decidable_of_iff (s.requeues = [] ∧ (∀ k < 2, ∃ p ∈ (s.redis.queues "q").pending, p.id = k) ∧
      (∀ k < 2, ((s.redis.queues "q").stream[k]?).map TaskEnvelope.taskId = some (nthId k)) ∧
      ∀ k < 2, ∃ task ∈ s.db.tasks, task.id = nthId k)
    ⟨fun ⟨hr, hp, hs, ht⟩ => ⟨hr, hp, hs, ht⟩, fun ⟨hr, hp, hs, ht⟩ => ⟨hr, hp, hs, ht⟩⟩

/-- A worker adopts an entry, whose prior attempt it fails to close, and acquires its
lease. -/
theorem Ready.acquire (h : s.Ready) {k : ℕ} (hk : k < 2)
    (hfree : s.redis.leaseStore.leases (nthId k).str = none) :
    ∃ (s' : Sys) (i : ℕ) (job : Job), Transition.Reaches step s s' ∧ s'.Ready ∧
      s'.jobs[i]? = some job ∧ job.pc = .execute .recordAttempt ∧ job.envelope.taskId = nthId k ∧
      job.fence = NumberText.toDouble (s.redis.leaseStore.fenceSeq + 1) ∧
      s'.redis.leaseStore.fenceSeq = s.redis.leaseStore.fenceSeq + 1 ∧ s'.db = s.db ∧
      ∀ text ≠ (nthId k).str, s'.redis.leaseStore.leases text = s.redis.leaseStore.leases text := by
  obtain ⟨e, he, hid⟩ := Option.map_eq_some_iff.mp (h.stream k hk)
  obtain ⟨p, hp, rfl⟩ := h.pending k hk
  rw [← hid] at hfree ⊢
  obtain ⟨s', i, job, hreach, hjob, hpc, henvelope, hfence, hseq, hdb, hrequeues, hothers, hstream,
    hpending⟩ := exists_acquired hp he hfree
  have htask : job.envelope.taskId = e.taskId := by rw [henvelope, TaskEnvelope.nextAttempt_taskId]
  refine ⟨s', i, job, hreach.reaches, ⟨hrequeues.trans h.requeues, fun j hj => ?_, fun j hj => ?_,
    fun j hj => ?_⟩, hjob, hpc, htask, hfence, hseq, hdb, hothers⟩
  · obtain ⟨old, hold, holdId⟩ := h.pending j hj
    obtain ⟨new, hnew, hnewId⟩ := hpending old hold
    exact ⟨new, hnew, hnewId.trans holdId⟩
  · rw [hstream]
    exact h.stream j hj
  · rw [hdb]
    exact h.tasks j hj

/-- The worker goes on to record its attempt. -/
theorem Ready.record (h : s.Ready) {k i : ℕ} {job : Job} (hk : k < 2)
    (hjob : s.jobs[i]? = some job) (hpc : job.pc = .execute .recordAttempt)
    (hid : job.envelope.taskId = nthId k)
    (hnew : ∀ other ∈ s.db.attempts, other.taskId ≠ nthId k) :
    ∃ s', Transition.Reaches step s s' ∧ s'.Ready ∧ s'.redis = s.redis ∧
      s'.db.attempts = s.db.attempts ++ [job.attemptRow] := by
  have hlock : s.locks.updating job.envelope.taskId = false := by simp [locks, h.requeues]
  have htask : ∃ task ∈ s.db.tasks, task.id = job.envelope.taskId := by
    rw [hid]
    exact h.tasks k hk
  have hfree : ∀ other ∈ s.db.attempts, ¬ (other.taskId = job.envelope.taskId ∧
      other.attemptNo = job.envelope.attemptNo) :=
    fun other hother hsame => hnew other hother (hsame.1.trans hid)
  refine ⟨_, (Transition.ReachesWhen.refl s).tail (a := .jobStep i (.ok 0 0)) trivial
    (step_of_recordAttempt hjob hpc hlock htask hfree),
    ⟨h.requeues, h.pending, h.stream, fun j hj => ?_⟩, rfl, rfl⟩
  obtain ⟨task, htask, htaskId⟩ := h.tasks j hj
  refine ⟨_, List.mem_map_of_mem htask, ?_⟩
  rw [Db.setState_id]
  exact htaskId

/-- The counter can be brought to any value with no lease held and no attempt recorded. -/
theorem exists_ready (n : ℕ) : ∃ s : Sys, s.Reachable ∧ s.Ready ∧
    s.redis.leaseStore.fenceSeq = n ∧ s.db.attempts = [] ∧
    ∀ k < 2, s.redis.leaseStore.leases (nthId k).str = none := by
  induction n with
  | zero =>
    obtain ⟨s, hrun, hcheck⟩ := Transition.exists_run_of_check step init
      (accept 0 { queue := "q", taskName := "t", payload := .null } (nthId 0) ++
        accept 1 { queue := "q", taskName := "t", payload := .null } (nthId 1) ++
        [.deliver "a" 100 "q", .deliver "a" 100 "q"])
      (fun s => s.Ready ∧ s.redis.leaseStore.fenceSeq = 0 ∧ s.db.attempts = [] ∧
        ∀ k : ℕ, k < 2 → s.redis.leaseStore.leases (nthId k).str = none)
      (by decide +kernel)
    exact ⟨s, .of_run hrun, hcheck⟩
  | succ n ih =>
    obtain ⟨s, hreach, hready, hseq, hattempts, hfree⟩ := ih
    obtain ⟨t, i, job, hreach', hready', -, -, -, -, hseq', hdb, hothers⟩ :=
      hready.acquire (by decide : 0 < 2) (hfree 0 (by decide))
    -- the lease runs out before anything is recorded
    refine ⟨{ t with redis := t.redis.withLeases (t.redis.leaseStore.expireLease (nthId 0).str) },
      (hreach.trans hreach').tail (a := .expire (nthId 0).str) trivial rfl,
      ⟨hready'.requeues, hready'.pending, hready'.stream, hready'.tasks⟩, ?_, ?_, ?_⟩
    · exact hseq'.trans (congrArg Nat.succ hseq)
    · exact (congrArg Db.attempts hdb).trans hattempts
    · intro k hk
      simp only [Redis.withLeases_leaseStore, LeaseStore.expireLease]
      by_cases htext : (nthId k).str = (nthId 0).str
      · rw [htext, Function.update_self]
      · rw [Function.update_of_ne htext, hothers _ htext]
        exact hfree k hk

/-- Fences repeat once the counter has passed `2 ^ 53`: the acquisitions at `2 ^ 53 - 1` and
at `2 ^ 53` are given the same one, and both record an attempt under it. -/
theorem fences_repeat : ∃ s : Sys, s.Reachable ∧
    ¬ (s.db.attempts.map AttemptRow.fence).Nodup := by
  obtain ⟨s, hreach, hready, hseq, hattempts, hfree⟩ := exists_ready (2 ^ 53 - 1)
  obtain ⟨t, i, first, hreach₁, hready₁, hi, hpc, hid, hfence, hseq₁, hdb, hothers⟩ :=
    hready.acquire (by decide : 0 < 2) (hfree 0 (by decide))
  obtain ⟨t', hreach₂, hready₂, hredis, hfirst⟩ := hready₁.record (by decide) hi hpc hid
    (by simp [hdb, hattempts])
  rw [hdb, hattempts, List.nil_append] at hfirst
  -- the second task's lease was never taken
  have hfree' : t'.redis.leaseStore.leases (nthId 1).str = none := by
    rw [hredis, hothers _ (by decide +kernel)]
    exact hfree 1 (by decide)
  obtain ⟨u, j, second, hreach₃, hready₃, hj, hpc', hid', hfence', -, hdb', -⟩ :=
    hready₂.acquire (by decide : 1 < 2) hfree'
  obtain ⟨u', hreach₄, -, -, hsecond⟩ := hready₃.record (by decide) hj hpc' hid' (by
    rw [hdb', hfirst]
    simp [Job.attemptRow, hid, nthId])
  refine ⟨u', ((hreach.trans (hreach₁.trans hreach₂)).trans hreach₃).trans hreach₄, ?_⟩
  have hsame : second.fence = first.fence := by
    rw [hfence', hredis, hseq₁, hfence, hseq]
    decide
  rw [hsecond, hdb', hfirst]
  simp [Job.attemptRow, hsame]

end Sys

end Dtq
