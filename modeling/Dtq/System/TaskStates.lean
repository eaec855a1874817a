import Dtq.System.Attempts
import Dtq.System.Enqueue

/-!
# The recorded state of a task

`tasks.state` is written blindly: a worker that records an attempt sets the task to
leased, and one that gives up sets it to dead, without looking for an effect. The commit
of an effect sets it to succeeded, but a worker that finds the effect already there
closes its attempt and leaves the task as it is.

So a committed success stays recorded exactly as long as nobody records an attempt or
gives up on the task afterwards.

## Main results

* `Sys.Reachable.taskInv` — an effect has a task row
* `Sys.success_stays_recorded` — without such a write, a task with an effect is succeeded
* `Sys.success_forgotten` — a redelivery after a crash leaves the task leased for good
-/

set_option autoImplicit false

namespace Dtq

namespace Sys

variable {s s' : Sys} {a : Action}

/-- The task has a row. -/
def HasTask (s : Sys) (taskId : Uuid) : Prop := ∃ task ∈ s.db.tasks, task.id = taskId

/-- Which tasks have rows is decided by the untouched columns. -/
theorem hasTask_of_core (hcore : s'.db.tasks.map TaskRow.core = s.db.tasks.map TaskRow.core)
    {taskId : Uuid} (htask : s.HasTask taskId) : s'.HasTask taskId := by
  obtain ⟨task, hmem, rfl⟩ := htask
  have hmem' : task.core ∈ s'.db.tasks.map TaskRow.core := hcore ▸ List.mem_map_of_mem hmem
  obtain ⟨task', htask', heq⟩ := List.mem_map.mp hmem'
  have hid : task'.core.id = task.core.id := congrArg TaskRow.id heq
  exact ⟨task', htask', hid⟩

/-- Task rows are never removed. -/
theorem Moves.hasTask (h : s.Moves a s') {taskId : Uuid} (htask : s.HasTask taskId) :
    s'.HasTask taskId := by
  rcases h.rows_cases with hcore | ⟨i, reply, post, -, -, -, -, happend⟩
  · exact hasTask_of_core hcore htask
  · obtain ⟨task, hmem, hid⟩ := htask
    exact ⟨task, happend ▸ List.mem_append_left _ hmem, hid⟩

/-- Whoever has recorded an attempt has found the task's row. -/
structure TaskInv (s : Sys) : Prop where
  recorded : ∀ job ∈ s.jobs, job.pc.Recorded → s.HasTask job.envelope.taskId
  effects : ∀ row ∈ s.db.effects, s.HasTask row.taskId

theorem TaskInv.step (h : s.TaskInv) (hstep : s.step a = some s') : s'.TaskInv := by
  have hmoves := moves_of_step hstep
  have hkeep : ∀ taskId, s.HasTask taskId → s'.HasTask taskId := fun _ => hmoves.hasTask
  have hold : ∀ job ∈ s.jobs, job.pc.Recorded → s'.HasTask job.envelope.taskId :=
    fun job hjob hrec => hkeep _ (h.recorded job hjob hrec)
  rcases hmoves.worker_cases with
    ⟨i, job, job', stores', -, hjob, hmove, rfl⟩ | ⟨job, hnew, hjobs, hdb, -⟩ |
      ⟨hjobs, heffects, -, -⟩
  · have hmem := List.mem_of_getElem? hjob
    refine ⟨?_, ?_⟩
    · apply Indexed.forall_mem_set hold
      intro hrec
      rw [hmove.taskId_eq]
      obtain ⟨-, hbefore | ⟨hpc, happend⟩⟩ := hmove.recorded_cases hrec
      · exact hold job hmem hbefore
      · -- the foreign key of `attempts` was checked
        refine hkeep _ ?_
        obtain rfl | ⟨job'', hproceeds⟩ := hmove.stores_cases
        · simp at happend
        · cases hproceeds with
          | recorded _ _ htask _ => exact htask
          | _ => simp_all
    · intro row hrow
      rcases hmove.mem_effects_cases hrow with hbefore | ⟨result, hpc, -, rfl⟩
      · exact hkeep _ (h.effects row hbefore)
      · exact hold job hmem (by simp [hpc, Pc.Recorded])
  · refine ⟨?_, ?_⟩
    · rw [hjobs]
      apply Indexed.forall_mem_append_singleton hold
      intro hrec
      rcases hnew.pc with hpc | hpc <;> simp [hpc, Pc.Recorded] at hrec
    · rw [hdb]
      exact fun row hrow => hkeep _ (h.effects row hrow)
  · refine ⟨hjobs ▸ hold, ?_⟩
    rw [heffects]
    exact fun row hrow => hkeep _ (h.effects row hrow)

theorem Reachable.taskInv (h : s.Reachable) : s.TaskInv := by
  apply Transition.Reaches.invariant (fun _ _ _ hinv hstep => hinv.step hstep) h
  exact ⟨by simp [init], by simp [init, Db.empty]⟩

/-! ### When a success stays recorded -/

/-- A task with an effect is recorded as succeeded. -/
def SuccessRecorded (s : Sys) : Prop :=
  ∀ row ∈ s.db.effects, ∀ task ∈ s.db.tasks, task.id = row.taskId → task.state = .succeeded

/-- Nothing is requeued or cancelled. -/
def WithoutRequeueOrCancel (_ : Sys) (a : Action) : Prop :=
  match a with
  | .requeue _ _ | .cancel _ => False
  | _ => True

instance (s : Sys) : DecidablePred (WithoutRequeueOrCancel s)
  | .requeue _ _ | .cancel _ => isFalse id
  | .post _ _ | .postStep _ _ | .produce _ _ _ | .requeueStep _ _ | .deliver _ _ _
  | .adopt _ _ _ _ | .jobStep _ _ | .handler _ _ | .heartbeat _ | .promote _ _ | .expire _ =>
    isTrue trivial

/-- No worker writes to a task that has an effect: a call that records an attempt or marks
a task dead takes effect only while the task has none. -/
def WritesBeforeEffect (s : Sys) (a : Action) : Prop :=
  match a with
  | .jobStep i reply => reply.applied = true → ∀ job ∈ s.jobs[i]?,
      job.pc = .execute .recordAttempt ∨ job.pc = .markDead →
        ∀ row ∈ s.db.effects, row.taskId ≠ job.envelope.taskId
  | _ => True

instance (s : Sys) : DecidablePred (WritesBeforeEffect s)
  | .jobStep i reply => inferInstanceAs (Decidable (reply.applied = true → ∀ job ∈ s.jobs[i]?,
      job.pc = .execute .recordAttempt ∨ job.pc = .markDead →
        ∀ row ∈ s.db.effects, row.taskId ≠ job.envelope.taskId))
  | .requeue _ _ | .cancel _ | .post _ _ | .postStep _ _ | .produce _ _ _ | .requeueStep _ _
  | .deliver _ _ _ | .adopt _ _ _ _ | .handler _ _ | .heartbeat _ | .promote _ _ | .expire _ =>
    isTrue trivial

/-- The condition of a run in which a success is not written over. -/
def KeepsSuccess (s : Sys) (a : Action) : Prop :=
  WithoutRequeueOrCancel s a ∧ WritesBeforeEffect s a

instance (s : Sys) (a : Action) : Decidable (KeepsSuccess s a) :=
  inferInstanceAs (Decidable (_ ∧ _))

/-- A write to another task leaves a row alone. -/
theorem state_of_setState {rows : List TaskRow} {taskId : Uuid} {state : TaskState}
    {attempt : Option ℕ} {task : TaskRow}
    (hmem : task ∈ rows.map (Db.setState taskId state attempt)) (hne : task.id ≠ taskId) :
    task ∈ rows := by
  obtain ⟨old, hold, rfl⟩ := List.mem_map.mp hmem
  rw [Db.setState_id] at hne
  rw [Db.setState, if_neg hne]
  exact hold

/-- A job's move keeps successes recorded when it does not write over one. -/
theorem SuccessRecorded.job {i : ℕ} {job job' : Job} {stores' : Stores}
    (h : s.SuccessRecorded) (hmove : job.Moves s.stores s.locks stores' job')
    (hwrite : stores' ≠ s.stores → job.pc = .execute .recordAttempt ∨ job.pc = .markDead →
      ∀ row ∈ s.db.effects, row.taskId ≠ job.envelope.taskId) :
    (s.setJob i stores' job').SuccessRecorded := by
  -- a call that failed without effect has written nothing
  by_cases hstores : stores' = s.stores
  · rw [hstores]
    exact h
  intro row hrow task htask hid
  obtain ⟨result, hpc, heffects, hmap⟩ | ⟨heffects, htasks⟩ := hmove.tasks_cases
  · rw [setJob_db, heffects, List.mem_append, List.mem_singleton] at hrow
    rw [setJob_db, hmap] at htask
    -- the commit writes the effect and the state together
    by_cases hown : task.id = job.envelope.taskId
    · obtain ⟨old, hold, rfl⟩ := List.mem_map.mp htask
      rw [Db.setState_id] at hown
      rw [Db.setState, if_pos hown]
    · rcases hrow with hrow | rfl
      · exact h row hrow task (state_of_setState htask hown) hid
      · exact absurd hid hown
  · rw [setJob_db, heffects] at hrow
    rw [setJob_db] at htask
    rcases htasks with hsame | ⟨hpc, hmap⟩ | ⟨hpc, hmap⟩
    · rw [hsame] at htask
      exact h row hrow task htask hid
    · have hne := hwrite hstores (Or.inl hpc) row hrow
      rw [hmap] at htask
      exact h row hrow task (state_of_setState htask (hid ▸ hne)) hid
    · have hne := hwrite hstores (Or.inr hpc) row hrow
      rw [hmap] at htask
      exact h row hrow task (state_of_setState htask (hid ▸ hne)) hid

theorem SuccessRecorded.step (h : s.SuccessRecorded) (hrequeues : s.requeues = [])
    (hbooks : s.EnqueueInv) (htasks : s.TaskInv) (ha : KeepsSuccess s a)
    (hstep : s.step a = some s') : s'.SuccessRecorded ∧ s'.requeues = [] := by
  cases moves_of_step hstep with
  | job hlabel hjob hmove =>
    refine ⟨h.job hmove fun hstores hpc => ?_, hrequeues⟩
    -- the stores have changed, so the call has taken effect
    rcases hlabel with ⟨reply, rfl, hfailed⟩ | ⟨-, hsame⟩
    · cases happlied : reply.applied with
      | true => exact ha.2 happlied _ hjob hpc
      | false => exact absurd (hfailed happlied) hstores
    · exact absurd hsame hstores
  | @post i reply post out _ hpost hmove =>
    refine ⟨fun row hrow task htask hid => ?_, hrequeues⟩
    rcases hmove.db_cases with hdb | ⟨hpc, hdb⟩
    · rw [setPost_db, hdb] at hrow htask
      exact h row hrow task htask hid
    · rw [setPost_db, hdb] at hrow htask
      rcases List.mem_append.mp htask with hold | hnew
      · exact h row hrow task hold hid
      · -- a task that is only now created has no effect
        obtain ⟨old, hold, holdId⟩ := htasks.effects row hrow
        obtain rfl := List.mem_singleton.mp hnew
        have hun : post.Uncommitted := by simp [Post.Uncommitted, hpc]
        exact absurd (holdId.trans hid.symm)
          (hbooks.uncommitted post (List.mem_of_getElem? hpost) hun old hold)
  | requeued | cancelled => exact ha.1.elim
  | requeue ha hrequeue => simp [hrequeues] at hrequeue
  | delivered | adopted | posted | produced | leases | promoted => exact ⟨h, hrequeues⟩

/-- **A committed success stays recorded.** In every run of the worker protocol in which
no attempt is recorded for, and no worker gives up on, a task that already has an effect:
whenever the table of effects holds an effect committed by a task, the task has a row and
the row says succeeded. -/
theorem success_stays_recorded (h : Transition.ReachesWhen step KeepsSuccess init s) :
    ∀ row ∈ s.db.effects, (∃ task ∈ s.db.tasks, task.id = row.taskId) ∧
      ∀ task ∈ s.db.tasks, task.id = row.taskId → task.state = .succeeded := by
  have hinv : (s.SuccessRecorded ∧ s.requeues = []) ∧ s.Reachable := by
    apply h.invariant (I := fun s => (s.SuccessRecorded ∧ s.requeues = []) ∧ s.Reachable) ?_
      ⟨⟨by simp [SuccessRecorded, init, Db.empty], rfl⟩, .refl _⟩
    rintro s a s' ⟨⟨hrec, hrequeues⟩, hreach⟩ ha hstep
    exact ⟨hrec.step hrequeues hreach.enqueueInv hreach.taskInv ha hstep,
      hreach.tail trivial hstep⟩
  exact fun row hrow => ⟨hinv.2.taskInv.effects row hrow, hinv.1.1 row hrow⟩

/-- The theorem at a run in which a handler fails once and succeeds on the retry. -/
theorem success_stays_recorded_retry : ∃ s : Sys, s.db.effects.length = 1 ∧
    ∀ row ∈ s.db.effects, ∀ task ∈ s.db.tasks, task.id = row.taskId →
      task.state = .succeeded := by
  obtain ⟨s, hreach, hcheck⟩ := Transition.exists_reachesWhen_of_check step KeepsSuccess init
    (accept 0 { queue := "q", taskName := "t", payload := .null } ⟨1⟩ ++
      [.deliver "a" 100 "q"] ++ proceeds 0 3 ++ [.handler 0 (.raised "ValueError" "boom")] ++
      proceeds 0 4 ++ [.promote "q" 1, .deliver "b" 100 "q"] ++ proceeds 1 3 ++
      [.handler 1 (.returned none)] ++ proceeds 1 5)
    (fun s => s.db.effects.length = 1) (by decide +kernel)
  exact ⟨s, hcheck, fun row hrow => (success_stays_recorded hreach row hrow).2⟩

/-- A committed success that is forgotten: the worker dies after committing and before
acknowledging, another one adopts the message, finds the effect and acknowledges. Nobody is
at work on the task any more, and its row says leased. -/
theorem success_forgotten : ∃ s : Sys,
    Transition.ReachesWhen step WithoutRequeueOrCancel init s ∧
    (∀ job ∈ s.jobs, job.pc = .ended) ∧
    ∃ row ∈ s.db.effects, ∃ task ∈ s.db.tasks,
      task.id = row.taskId ∧ task.state = .leased := by
  obtain ⟨s, hreach, hcheck⟩ := Transition.exists_reachesWhen_of_check step
    WithoutRequeueOrCancel init
    (accept 0 { queue := "q", taskName := "t", payload := .null } ⟨1⟩ ++
      [.deliver "a" 100 "q"] ++ proceeds 0 3 ++ [.handler 0 (.returned none)] ++ proceeds 0 3 ++
      [.jobStep 0 .crash, .expire (Uuid.str ⟨1⟩), .adopt "b" 100 "q" 0] ++ proceeds 1 4 ++
      [.handler 1 (.returned none)] ++ proceeds 1 4)
    (fun s => (∀ job ∈ s.jobs, job.pc = .ended) ∧
      ∃ row ∈ s.db.effects, ∃ task ∈ s.db.tasks, task.id = row.taskId ∧ task.state = .leased)
    (by decide +kernel)
  exact ⟨s, hreach, hcheck⟩

end Sys

end Dtq
