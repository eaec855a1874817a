import Dtq.System.AttemptNumbers

/-!
# A requeued task starts again at one

The requeue endpoint builds a message whose attempt is zero, so its execution asks for
attempt number one. The attempts of the task's first life are still on record, and the
store has one row per task and number. So the message of a requeued task is refused at the
record whenever the first life got as far as recording anything.

## Main result

* `Sys.requeued_delivery_runs_iff` — when a requeued task can run again
-/

set_option autoImplicit false

namespace Dtq

namespace Job

variable {job job' : Job} {stores stores' : Stores} {locks : Locks}

/-- The handler of the job runs or is about to be started. -/
def Launched (job : Job) : Prop :=
  job.pc = .execute .startHandler ∨ job.pc = .execute .handlerRunning

/-- The only way to the handler leads over a new attempt. -/
theorem Proceeds.launched_cases (h : job.Proceeds stores locks stores' job')
    (hlaunched : job'.Launched) :
    job.Launched ∨ job.pc = .execute .recordAttempt ∧
      ∀ other ∈ stores.db.attempts,
        ¬ (other.taskId = job.envelope.taskId ∧ other.attemptNo = job.envelope.attemptNo) := by
  cases h with
  | recorded hpc hlock htask hnew => exact Or.inr ⟨hpc, hnew⟩
  | handlerStarted hpc => exact Or.inl (Or.inl hpc)
  | _ => simp [Launched, goto, returns, adopted] at hlaunched

theorem Moves.launched_cases (h : job.Moves stores locks stores' job')
    (hlaunched : job'.Launched) :
    job.Launched ∨ job.pc = .execute .recordAttempt ∧
      ∀ other ∈ stores.db.attempts,
        ¬ (other.taskId = job.envelope.taskId ∧ other.attemptNo = job.envelope.attemptNo) := by
  cases h with
  | proceeds h => exact h.launched_cases hlaunched
  | raisedAfter h hexc | failed hactive hexc => cases hexc <;> simp [Launched] at hlaunched
  | skippedPrior => simp [Launched, adopted] at hlaunched
  | handlerEnded hpc hnext => exact Or.inl hpc.symm

end Job

namespace Sys

variable {s s' : Sys} {a : Action} {i : ℕ} {job : Job}

/-- The handler of the job runs. -/
def HandlerRuns (s : Sys) (i : ℕ) : Prop :=
  ∃ job ∈ s.jobs[i]?, job.pc = .execute .handlerRunning

/-- What is on record stays on record. -/
theorem HasAttempt.step {taskId : Uuid} {attemptNo : ℕ} (h : s.HasAttempt taskId attemptNo)
    (hstep : s.step a = some s') : s'.HasAttempt taskId attemptNo := by
  rw [hasAttempt_iff_ident] at h ⊢
  obtain ⟨x, hx, hident⟩ := h
  refine ⟨x, ?_, hident⟩
  rcases (moves_of_step hstep).worker_cases with
    ⟨i, job, job', stores', -, -, hmove, rfl⟩ | ⟨job, -, -, hdb, -⟩ | ⟨-, -, hattempts, -⟩
  · exact hmove.ident_kept x hx
  · rwa [hdb]
  · rwa [hattempts]

/-- When the row is not locked and the number is free, the attempt is recorded and the
handler started. -/
theorem steps_of_recordAttempt (hjob : s.jobs[i]? = some job)
    (hpc : job.pc = .execute .recordAttempt) (htask : s.HasTask job.envelope.taskId)
    (hlock : s.locks.updating job.envelope.taskId = false)
    (hfree : ¬ s.HasAttempt job.envelope.taskId job.envelope.attemptNo) (now draw : ℚ) :
    ∃ s₁ s₂, s.step (.jobStep i (.ok now draw)) = some s₁ ∧
      s₁.db.attempts = s.db.attempts ++ [job.attemptRow] ∧
      s₁.step (.jobStep i (.ok now draw)) = some s₂ ∧ s₂.HandlerRuns i := by
  have hnew : ∀ other ∈ s.db.attempts,
      ¬ (other.taskId = job.envelope.taskId ∧ other.attemptNo = job.envelope.attemptNo) :=
    fun other hother hsame => hfree ⟨other, hother, hsame⟩
  refine ⟨_, _, step_of_recordAttempt hjob hpc hlock htask hnew, rfl,
    step_of_proceed (Indexed.getElem?_set_of_eq hjob) rfl, ?_⟩
  exact ⟨_, Indexed.getElem?_set_of_eq (Indexed.getElem?_set_of_eq hjob), rfl⟩

/-- A job whose number is taken comes no further than the record. -/
structure Barred (i : ℕ) (e : TaskEnvelope) (u : Sys) : Prop where
  taken : u.HasAttempt e.taskId e.attemptNo
  job : ∃ job, u.jobs[i]? = some job ∧ job.envelope = e ∧ job.pc ≠ .closePrior ∧ ¬ job.Launched

theorem Barred.step {e : TaskEnvelope} (h : Barred i e s) (hstep : s.step a = some s') :
    Barred i e s' := by
  refine ⟨h.taken.step hstep, ?_⟩
  obtain ⟨job, hjob, rfl, hpc, hlaunched⟩ := h.job
  rcases (moves_of_step hstep).worker_cases with
    ⟨j, old, new, stores', -, hold, hmove, rfl⟩ | ⟨new, -, hjobs, -⟩ | ⟨hjobs, -⟩
  · by_cases hji : i = j
    · subst hji
      obtain rfl := Option.mem_unique hjob hold
      refine ⟨new, Indexed.getElem?_set_of_eq hjob, ?_, hmove.pc_ne_closePrior, fun hnew => ?_⟩
      · exact hmove.envelope_cases.resolve_right fun hclose => hpc hclose.1
      · obtain ⟨-, hfree⟩ := (hmove.launched_cases hnew).resolve_left hlaunched
        obtain ⟨other, hother, hsame⟩ := h.taken
        exact hfree other hother hsame
    · refine ⟨job, ?_, rfl, hpc, hlaunched⟩
      rw [setJob_jobs, Indexed.getElem?_set_of_ne hji, hjob]
  · refine ⟨job, ?_, rfl, hpc, hlaunched⟩
    rw [hjobs]
    exact Indexed.getElem?_of_grow (List.prefix_append _ _) hjob
  · exact ⟨job, hjobs ▸ hjob, rfl, hpc, hlaunched⟩

/-- A job whose number is taken never starts its handler. -/
theorem not_handlerRuns_of_hasAttempt (hjob : s.jobs[i]? = some job)
    (hpc : job.pc = .execute .recordAttempt)
    (htaken : s.HasAttempt job.envelope.taskId job.envelope.attemptNo)
    (hrun : Transition.Reaches step s s') : ¬ s'.HandlerRuns i := by
  have hbarred : Barred i job.envelope s' := by
    apply hrun.invariant (I := Barred i job.envelope) fun u b v hu hstep => hu.step hstep
    exact ⟨htaken, job, hjob, rfl, by simp [hpc], by simp [Job.Launched, hpc]⟩
  rintro ⟨job', hjob', hrunning⟩
  obtain ⟨job₁, hjob₁, -, -, hnot⟩ := hbarred.job
  obtain rfl := Option.mem_unique hjob₁ hjob'
  exact hnot (Or.inr hrunning)

/-- The requests before position `n` may all die. -/
theorem exists_ended (s : Sys) (n : ℕ) : ∃ s', Transition.Reaches step s s' ∧ s'.db = s.db ∧
    s'.jobs = s.jobs ∧ s'.requeues.length = s.requeues.length ∧
    ∀ (k : ℕ) (requeue : Requeue), k < n → s'.requeues[k]? = some requeue →
      requeue.pc = .ended := by
  induction n with
  | zero => exact ⟨s, .refl s, rfl, rfl, rfl, by simp⟩
  | succ n ih =>
    obtain ⟨t, hreach, hdb, hjobs, hlength, hended⟩ := ih
    by_cases hopen : ∃ requeue, t.requeues[n]? = some requeue ∧ requeue.pc ≠ .ended
    · obtain ⟨requeue, hrequeue, hpc⟩ := hopen
      have hcrash : t.step (.requeueStep n .crash) =
          some (t.setRequeue n t.stores { requeue with pc := .ended }) := by
        simp [Sys.step, hrequeue, stepRequeue, hpc]
      refine ⟨_, hreach.tail trivial hcrash, hdb, hjobs, by simpa using hlength, ?_⟩
      intro k other hk hother
      rw [setRequeue_requeues] at hother
      by_cases hkn : k = n
      · subst hkn
        rw [Indexed.eq_of_getElem?_set hother]
      · rw [Indexed.getElem?_set_of_ne hkn] at hother
        exact hended k other (by omega) hother
    · refine ⟨t, hreach, hdb, hjobs, hlength, fun k other hk hother => ?_⟩
      by_cases hkn : k = n
      · subst hkn
        by_contra hpc
        exact hopen ⟨other, hother, hpc⟩
      · exact hended k other (by omega) hother

/-- The open requeue requests may all die, and then no row is locked. -/
theorem exists_unlocked (s : Sys) : ∃ s', Transition.Reaches step s s' ∧ s'.db = s.db ∧
    s'.jobs = s.jobs ∧ ∀ taskId, s'.locks.updating taskId = false := by
  obtain ⟨t, hreach, hdb, hjobs, hlength, hended⟩ := s.exists_ended s.requeues.length
  refine ⟨t, hreach, hdb, hjobs, fun taskId => ?_⟩
  have hall : ∀ requeue ∈ t.requeues, requeue.pc = .ended := by
    intro requeue hmem
    obtain ⟨k, hk⟩ := List.mem_iff_getElem?.mp hmem
    obtain ⟨hlt, -⟩ := List.getElem?_eq_some_iff.mp hk
    exact hended k requeue (hlength ▸ hlt) hk
  simp only [locks, List.any_eq_false]
  intro requeue hmem
  simp [Requeue.updating, hall requeue hmem]

/-- **A requeued task.** Take any state in which a job works on an envelope that a requeue
has built from a task's row, and has acquired the lease. Its handler can be started at all,
in any later run, exactly when the task has no attempt numbered one on record; and then
the attempt is recorded and the handler started by the next two calls, as soon as no open
requeue holds the task's row. -/
theorem requeued_delivery_runs_iff (s : Sys) : ∀ i job queue row now₀,
    s.jobs[i]? = some job → job.pc = .execute .recordAttempt →
    job.envelope = requeueEnvelope queue row now₀ → s.HasTask row.id →
    ((∃ s', Transition.Reaches step s s' ∧ s'.HandlerRuns i) ↔ ¬ s.HasAttempt row.id 1) ∧
    (¬ s.HasAttempt row.id 1 → s.locks.updating row.id = false → ∀ now draw, ∃ s₁ s₂ new,
      s.step (.jobStep i (.ok now draw)) = some s₁ ∧
      s₁.db.attempts = s.db.attempts ++ [new] ∧ new.taskId = row.id ∧ new.attemptNo = 1 ∧
      s₁.step (.jobStep i (.ok now draw)) = some s₂ ∧ s₂.HandlerRuns i) := by
  intro i job queue row now₀ hjob hpc he htask
  have hid : job.envelope.taskId = row.id := by rw [he, requeueEnvelope]
  have hno : job.envelope.attemptNo = 1 := by rw [he, requeueEnvelope, TaskEnvelope.attemptNo]
  refine ⟨⟨?_, ?_⟩, ?_⟩
  · rintro ⟨s', hrun, hruns⟩ htaken
    rw [← hid, ← hno] at htaken
    exact not_handlerRuns_of_hasAttempt hjob hpc htaken hrun hruns
  · intro hfree
    obtain ⟨t, hreach, hdb, hjobs, hlock⟩ := exists_unlocked s
    rw [← hid, ← hno, HasAttempt, ← hdb] at hfree
    rw [← hid, HasTask, ← hdb] at htask
    obtain ⟨s₁, s₂, hfirst, -, hsecond, hruns⟩ :=
      steps_of_recordAttempt (hjobs ▸ hjob) hpc htask (hlock _) hfree 0 0
    exact ⟨s₂, (hreach.tail trivial hfirst).tail trivial hsecond, hruns⟩
  · intro hfree hlock now draw
    rw [← hid] at hlock htask
    rw [← hid, ← hno] at hfree
    obtain ⟨s₁, s₂, hfirst, hattempts, hsecond, hruns⟩ :=
      steps_of_recordAttempt hjob hpc htask hlock hfree now draw
    exact ⟨s₁, s₂, job.attemptRow, hfirst, hattempts, hid, hno, hsecond, hruns⟩

/-- A dead task is requeued, its new message delivered and its lease acquired, as job 1. -/
def requeuedAndLeased : List Action :=
  [.requeue "q" [⟨1⟩]] ++ List.replicate 3 (.requeueStep 0 (.ok 0 0)) ++
    [.deliver "b" 100 "q"] ++ proceeds 1 1

/-- The state after `requeuedAndLeased`: job 1 is about to record an attempt for a message
that the requeue has built from the task's row. -/
def Requeued (s : Sys) : Prop :=
  s.HasTask ⟨1⟩ ∧ s.jobs[1]?.any (fun job => job.pc = .execute .recordAttempt ∧
    s.db.tasks[0]?.any fun row => row.id = ⟨1⟩ ∧ job.envelope = requeueEnvelope "q" row 0)

instance (s : Sys) : Decidable s.Requeued :=
  @instDecidableAnd _ _ (inferInstanceAs (Decidable (∃ task ∈ s.db.tasks, _))) inferInstance

theorem Requeued.exists_job (h : s.Requeued) : ∃ job row, s.jobs[1]? = some job ∧
    job.pc = .execute .recordAttempt ∧ job.envelope = requeueEnvelope "q" row 0 ∧
    row.id = ⟨1⟩ ∧ s.HasTask row.id := by
  obtain ⟨htask, hjobs⟩ := h
  obtain ⟨job, hjob, hcheck⟩ := (Option.any_eq_true _ _).mp hjobs
  obtain ⟨hpc, hrows⟩ := of_decide_eq_true hcheck
  obtain ⟨row, -, hrow⟩ := (Option.any_eq_true _ _).mp hrows
  obtain ⟨hid, he⟩ := of_decide_eq_true hrow
  exact ⟨job, row, hjob, hpc, he, hid, hid ▸ htask⟩

/-- The theorem at a task that died because the store was down: no attempt is on record, and
the requeued task can run. -/
theorem requeued_delivery_runs_iff_unrecorded : ∃ s : Sys, s.Reachable ∧ s.Requeued ∧
    ∃ s', Transition.Reaches step s s' ∧ s'.HandlerRuns 1 := by
  obtain ⟨s, hrun, hrequeued, hfree⟩ := Transition.exists_run_of_check step init
    (accept 0 { queue := "q", taskName := "t", payload := .null, maxAttempts := 1 } ⟨1⟩ ++
      [.deliver "a" 100 "q"] ++ proceeds 0 1 ++ [.jobStep 0 (.raise false 0 0 "down")] ++
      proceeds 0 4 ++ requeuedAndLeased)
    (fun s => s.Requeued ∧ ¬ s.HasAttempt ⟨1⟩ 1) (by decide +kernel)
  obtain ⟨job, row, hjob, hpc, he, hid, htask⟩ := hrequeued.exists_job
  refine ⟨s, .of_run hrun, hrequeued, ?_⟩
  exact (requeued_delivery_runs_iff s 1 job "q" row 0 hjob hpc he htask).1.mpr (hid ▸ hfree)

/-- A task that died after its only attempt is requeued. Its message is delivered and the
lease acquired, but the number one is taken: the handler is never started, the store's
refusal is taken for a failure of the task, and the task is dead-lettered again. -/
theorem requeued_task_never_runs : ∃ dead s s' : Sys, dead.Reachable ∧
    dead.db.tasks.map TaskRow.state = [.dead] ∧ dead.db.attempts.length = 1 ∧
    Transition.run step dead requeuedAndLeased = some s ∧ s.Requeued ∧
    (∀ t, Transition.Reaches step s t → ¬ t.HandlerRuns 1) ∧
    Transition.Reaches step s s' ∧ s'.db.tasks.map TaskRow.state = [.dead] ∧
    s'.db.attempts.length = 1 ∧ (s'.redis.queues "q").dlq.length = 2 := by
  obtain ⟨dead, hrun, hstate, hattempts, hafter⟩ := Transition.exists_run_of_check step init
    (accept 0 { queue := "q", taskName := "t", payload := .null, maxAttempts := 1 } ⟨1⟩ ++
      [.deliver "a" 100 "q"] ++ proceeds 0 3 ++ [.handler 0 (.raised "ValueError" "boom")] ++
      proceeds 0 5)
    (fun dead => dead.db.tasks.map TaskRow.state = [.dead] ∧ dead.db.attempts.length = 1 ∧
      (Transition.run step dead requeuedAndLeased).any fun s => s.Requeued ∧
        s.HasAttempt ⟨1⟩ 1 ∧
        (Transition.run step s (.jobStep 1 (.raise false 0 0 "duplicate key") ::
            proceeds 1 4)).any fun s' => s'.db.tasks.map TaskRow.state = [.dead] ∧
          s'.db.attempts.length = 1 ∧ (s'.redis.queues "q").dlq.length = 2)
    (by decide +kernel)
  obtain ⟨s, hrequeue, hcheck⟩ := (Option.any_eq_true _ _).mp hafter
  obtain ⟨hrequeued, htaken, hlast⟩ := of_decide_eq_true hcheck
  obtain ⟨s', hrun', hcheck'⟩ := (Option.any_eq_true _ _).mp hlast
  obtain ⟨job, row, hjob, hpc, he, hid, -⟩ := hrequeued.exists_job
  have htaken' : s.HasAttempt job.envelope.taskId job.envelope.attemptNo := by
    simpa [he, requeueEnvelope, TaskEnvelope.attemptNo, hid] using htaken
  refine ⟨dead, s, s', .of_run hrun, hstate, hattempts, hrequeue, hrequeued, fun t hreach => ?_,
    .of_run hrun', of_decide_eq_true hcheck'⟩
  exact not_handlerRuns_of_hasAttempt hjob hpc htaken' hreach

end Sys

end Dtq
