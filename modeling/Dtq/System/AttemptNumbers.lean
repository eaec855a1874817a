import Dtq.System.Executions

/-!
# Which number an execution records its attempt under

An execution of an envelope records its attempt under the envelope's attempt plus one.
The reclaim loop disagrees with this twice. It closes the attempt numbered like the
envelope, which is the one before the interrupted one. And it increments the attempt of an
entry that never changes, so every adoption of the entry comes to the same number.

## Main results

* `Sys.reclaim_closes_interrupted_iff` — when the reclaim loop closes the interrupted
  attempt and no other
* `Sys.adopted_numbers_fresh` — adoptions have fresh numbers as long as only one of them
  gets to record its attempt
-/

set_option autoImplicit false

namespace Dtq

namespace Job

variable {job job' : Job} {stores stores' : Stores} {locks : Locks}

/-- Nothing but the reclaim loop changes the envelope. -/
theorem Moves.envelope_cases (h : job.Moves stores locks stores' job') :
    job'.envelope = job.envelope ∨
      job.pc = .closePrior ∧ job'.envelope = job.envelope.nextAttempt := by
  cases h with
  | proceeds h | raisedAfter h =>
    cases h with
    | closedPrior now hpc => exact Or.inr ⟨hpc, rfl⟩
    | _ => exact Or.inl rfl
  | failed | handlerEnded => exact Or.inl rfl
  | skippedPrior hpc => exact Or.inr ⟨hpc, rfl⟩

end Job

namespace Sys

variable {s s' : Sys} {a : Action} {i : ℕ} {job : Job}

/-! ### The reclaim loop closes the prior attempt -/

/-- The columns that say how an attempt went. -/
def outcomeOf (a : AttemptRow) : Option ℚ × Option AttemptOutcome × Option String × Option String :=
  (a.finishedAt, a.outcome, a.errorType, a.errorRepr)

/-- The attempt under the number of an interrupted execution of the envelope, not closed
yet. -/
def Interrupted (e : TaskEnvelope) (a : AttemptRow) : Prop :=
  a.taskId = e.taskId ∧ a.attemptNo = e.attempt + 1 ∧ a.outcome = none

instance (e : TaskEnvelope) (a : AttemptRow) : Decidable (Interrupted e a) :=
  inferInstanceAs (Decidable (_ ∧ _ ∧ _))

/-- From `before` to `after` the interrupted attempt of the envelope is closed as lost, and
every other attempt keeps its outcome. -/
def ClosesInterrupted (e : TaskEnvelope) (before after : List AttemptRow) : Prop :=
  ∀ (k : ℕ) (a : AttemptRow), before[k]? = some a → ∃ a' : AttemptRow, after[k]? = some a' ∧
    if Interrupted e a then a'.outcome = some .leaseLost else outcomeOf a' = outcomeOf a

theorem getElem?_closeAttempt {db : Db} {k : ℕ} {a : AttemptRow} (hk : db.attempts[k]? = some a)
    {taskId : Uuid} {attemptNo : ℕ} {outcome : AttemptOutcome} {errorType errorRepr : Option String}
    {now : ℚ} :
    (db.closeAttempt taskId attemptNo outcome errorType errorRepr now).attempts[k]? =
      some (if a.taskId = taskId ∧ a.attemptNo = attemptNo then
        { a with
          finishedAt := some now
          outcome := some outcome
          errorType := errorType
          errorRepr := errorRepr }
      else a) := by
  rw [Db.closeAttempt, List.getElem?_map, hk]
  rfl

/-- The step of the reclaim loop, when its transaction commits. -/
theorem step_closePrior (hjob : s.jobs[i]? = some job) (hpc : job.pc = .closePrior)
    (now draw : ℚ) : ∃ s', s.step (.jobStep i (.ok now draw)) = some s' ∧
      s'.db = s.db.closeAttempt job.envelope.taskId job.envelope.attempt .leaseLost none none
        now := by
  have hproceed : job.proceed s.stores s.locks now draw =
      some ({ s.stores with
        db := s.db.closeAttempt job.envelope.taskId job.envelope.attempt .leaseLost none none
          now }, job.adopted) := by
    simp [Job.proceed, hpc]
  exact ⟨_, step_of_proceed hjob hproceed, rfl⟩

/-- **The history of a task over a reclaim.** Take any state in which the reclaim loop has
adopted an entry and is about to close the prior attempt. At every time of the clock this
closes the attempt of the interrupted execution, if it is open, and leaves the others
alone, exactly when there is no such open attempt and no attempt under the number before
it: the loop looks for the latter. -/
theorem reclaim_closes_interrupted_iff (s : Sys) : ∀ i job, s.jobs[i]? = some job →
    job.pc = .closePrior →
    ((∀ now draw s', s.step (.jobStep i (.ok now draw)) = some s' →
        ClosesInterrupted job.envelope s.db.attempts s'.db.attempts) ↔
      (∀ a ∈ s.db.attempts, ¬ Interrupted job.envelope a) ∧
        ∀ a ∈ s.db.attempts,
          ¬ (a.taskId = job.envelope.taskId ∧ a.attemptNo = job.envelope.attempt)) := by
  intro i job hjob hpc
  constructor
  · intro hcloses
    have hprior : ∀ a ∈ s.db.attempts,
        ¬ (a.taskId = job.envelope.taskId ∧ a.attemptNo = job.envelope.attempt) := by
      intro a ha hprior
      obtain ⟨k, hk⟩ := List.mem_iff_getElem?.mp ha
      have hnot : ¬ Interrupted job.envelope a := fun hopen =>
        absurd (hprior.2.symm.trans hopen.2.1) (by omega)
      -- at one of the times 0 and 1 the end of the attempt is moved
      have hmoved : ∀ now, a.finishedAt = some now := by
        intro now
        obtain ⟨s', hstep, hdb⟩ := step_closePrior hjob hpc now 0
        obtain ⟨a', ha', hkept⟩ := hcloses now 0 s' hstep k a hk
        rw [hdb, getElem?_closeAttempt hk, if_pos hprior, Option.some.injEq] at ha'
        rw [if_neg hnot, ← ha'] at hkept
        exact (congrArg Prod.fst hkept).symm
      have hsame := (hmoved 0).symm.trans (hmoved 1)
      simp at hsame
    refine ⟨fun a ha hopen => ?_, hprior⟩
    obtain ⟨k, hk⟩ := List.mem_iff_getElem?.mp ha
    obtain ⟨s', hstep, hdb⟩ := step_closePrior hjob hpc 0 0
    obtain ⟨a', ha', hclosed⟩ := hcloses 0 0 s' hstep k a hk
    -- the update looks for another number, so the row is as open as it was
    rw [hdb, getElem?_closeAttempt hk, if_neg (hprior a ha), Option.some.injEq] at ha'
    rw [if_pos hopen, ← ha', hopen.2.2] at hclosed
    simp at hclosed
  · rintro ⟨hopen, hprior⟩ now draw s' hstep k a hk
    have ha := List.mem_of_getElem? hk
    obtain ⟨t, ht, hdb⟩ := step_closePrior hjob hpc now draw
    obtain rfl := Option.mem_unique ht hstep
    refine ⟨a, ?_, ?_⟩
    · rw [hdb, getElem?_closeAttempt hk, if_neg (hprior a ha)]
    · rw [if_neg (hopen a ha)]

/-- The theorem at an execution that was interrupted before it recorded its attempt: there
is nothing to close, and nothing is lost. -/
theorem reclaim_closes_interrupted_iff_unrecorded : ∃ (s : Sys) (job : Job), s.Reachable ∧
    s.jobs[1]? = some job ∧ job.pc = .closePrior ∧
    ∀ now draw s', s.step (.jobStep 1 (.ok now draw)) = some s' →
      ClosesInterrupted job.envelope s.db.attempts s'.db.attempts := by
  obtain ⟨s, hrun, hjobs, hattempts⟩ := Transition.exists_run_of_check step init
    (accept 0 { queue := "q", taskName := "t", payload := .null } ⟨1⟩ ++
      [.deliver "a" 100 "q"] ++ proceeds 0 1 ++ [.jobStep 0 .crash, .adopt "b" 100 "q" 0])
    (fun s => (s.jobs[1]?.any fun job => job.pc = .closePrior) ∧ s.db.attempts = [])
    (by decide +kernel)
  obtain ⟨job, hjob, hcheck⟩ := (Option.any_eq_true _ _).mp hjobs
  have hpc := of_decide_eq_true hcheck
  refine ⟨s, job, .of_run hrun, hjob, hpc, ?_⟩
  apply (reclaim_closes_interrupted_iff s 1 job hjob hpc).mpr
  simp [hattempts]

/-- A task whose first attempt fails with an error and whose retry is interrupted in the
handler; worker `b` adopts the retry. -/
def retriedAndInterrupted : List Action :=
  accept 0 { queue := "q", taskName := "t", payload := .null } ⟨1⟩ ++
    [.deliver "a" 100 "q"] ++ proceeds 0 3 ++ [.handler 0 (.raised "ValueError" "boom")] ++
    proceeds 0 4 ++ [.promote "q" 0, .deliver "a" 100 "q"] ++ proceeds 1 3 ++
    [.jobStep 1 .crash, .adopt "b" 100 "q" 1]

/-- The reclaim loop erases the error of the first attempt and leaves the interrupted second
one open. -/
theorem failed_attempt_erased : ∃ (s s' : Sys) (job : Job), s.Reachable ∧
    s.jobs[2]? = some job ∧ job.pc = .closePrior ∧ job.envelope.attempt = 1 ∧
    s.db.attempts.map (fun a => (a.attemptNo, a.outcome, a.errorType)) =
      [(1, some .failed, some "ValueError"), (2, none, none)] ∧
    s.step (.jobStep 2 (.ok 7 0)) = some s' ∧
    s'.db.attempts.map (fun a => (a.attemptNo, a.outcome, a.errorType)) =
      [(1, some .leaseLost, none), (2, none, none)] ∧
    ¬ ClosesInterrupted job.envelope s.db.attempts s'.db.attempts := by
  obtain ⟨s, hrun, hjobs, hbefore, hafter⟩ := Transition.exists_run_of_check step init
    retriedAndInterrupted
    (fun s => (s.jobs[2]?.any fun job => job.pc = .closePrior ∧ job.envelope.attempt = 1 ∧
        s.db.attempts[1]?.any fun a => Interrupted job.envelope a) ∧
      s.db.attempts.map (fun a => (a.attemptNo, a.outcome, a.errorType)) =
        [(1, some .failed, some "ValueError"), (2, none, none)] ∧
      (s.step (.jobStep 2 (.ok 7 0))).any fun s' =>
        s'.db.attempts.map (fun a => (a.attemptNo, a.outcome, a.errorType)) =
          [(1, some .leaseLost, none), (2, none, none)])
    (by decide +kernel)
  obtain ⟨job, hjob, hcheck⟩ := (Option.any_eq_true _ _).mp hjobs
  obtain ⟨hpc, hattempt, hopen⟩ := of_decide_eq_true hcheck
  obtain ⟨a, ha, hinterrupted⟩ := (Option.any_eq_true _ _).mp hopen
  obtain ⟨s', hstep, hcheck'⟩ := (Option.any_eq_true _ _).mp hafter
  have hrows := of_decide_eq_true hcheck'
  refine ⟨s, s', job, .of_run hrun, hjob, hpc, hattempt, hbefore, hstep, hrows, fun hcloses => ?_⟩
  obtain ⟨a', ha', hclosed⟩ := hcloses 1 a ha
  rw [if_pos (of_decide_eq_true hinterrupted)] at hclosed
  have hlast := congrArg (fun rows => rows[1]?) hrows
  simp [ha', hclosed] at hlast

/-! ### Every adoption of an entry comes to the same number -/

/-- The attempt number is on record for the task. -/
def HasAttempt (s : Sys) (taskId : Uuid) (attemptNo : ℕ) : Prop :=
  ∃ a ∈ s.db.attempts, a.taskId = taskId ∧ a.attemptNo = attemptNo

instance (s : Sys) (taskId : Uuid) (attemptNo : ℕ) : Decidable (s.HasAttempt taskId attemptNo) :=
  inferInstanceAs (Decidable (∃ a ∈ s.db.attempts, _))

theorem hasAttempt_iff_ident {taskId : Uuid} {attemptNo : ℕ} :
    s.HasAttempt taskId attemptNo ↔ ∃ x ∈ s.db.attempts.map AttemptRow.ident,
      x.1 = taskId ∧ x.2.1 = attemptNo := by
  simp [HasAttempt, AttemptRow.ident]

section Adoptions

variable {queue : String} {msgId : ℕ} {e : TaskEnvelope}

/-- One entry of the task is handed to workers, however often: the one at this place, which
holds `e`. -/
def OneEntry (queue : String) (msgId : ℕ) (e : TaskEnvelope) (s : Sys) (a : Action) : Prop :=
  match a with
  | .deliver _ _ q => ∀ x ∈ (s.redis.queues q).stream[(s.redis.queues q).delivered]?,
      x.taskId = e.taskId → q = queue ∧ (s.redis.queues q).delivered = msgId ∧ x = e
  | .adopt _ _ q m => ∀ x ∈ (s.redis.queues q).stream[m]?,
      x.taskId = e.taskId → q = queue ∧ m = msgId ∧ x = e
  | _ => True

instance (s : Sys) : DecidablePred (OneEntry queue msgId e s)
  | .deliver _ _ q => inferInstanceAs (Decidable (
      ∀ x ∈ (s.redis.queues q).stream[(s.redis.queues q).delivered]?,
        x.taskId = e.taskId → q = queue ∧ (s.redis.queues q).delivered = msgId ∧ x = e))
  | .adopt _ _ q m => inferInstanceAs (Decidable (∀ x ∈ (s.redis.queues q).stream[m]?,
      x.taskId = e.taskId → q = queue ∧ m = msgId ∧ x = e))
  | .requeue _ _ | .cancel _ | .post _ _ | .postStep _ _ | .produce _ _ _ | .requeueStep _ _
  | .jobStep _ _ | .handler _ _ | .heartbeat _ | .promote _ _ | .expire _ => isTrue trivial

/-- An execution of the adopted entry acquires the lease only if no other one has its
attempt on record or is about to record it. -/
def RecordsOnce (e : TaskEnvelope) (s : Sys) (a : Action) : Prop :=
  match a with
  | .jobStep i reply => reply.applied = true → ∀ job ∈ s.jobs[i]?,
      job.pc = .execute .acquireLease → job.envelope = e.nextAttempt →
        ¬ s.HasAttempt e.taskId (e.attempt + 2) ∧
          ∀ other ∈ s.jobs, other.envelope = e.nextAttempt → other.pc ≠ .execute .recordAttempt
  | _ => True

instance (s : Sys) : DecidablePred (RecordsOnce e s)
  | .jobStep i reply => inferInstanceAs (Decidable (reply.applied = true → ∀ job ∈ s.jobs[i]?,
      job.pc = .execute .acquireLease → job.envelope = e.nextAttempt →
        ¬ s.HasAttempt e.taskId (e.attempt + 2) ∧
          ∀ other ∈ s.jobs, other.envelope = e.nextAttempt → other.pc ≠ .execute .recordAttempt))
  | .deliver _ _ _ | .adopt _ _ _ _ | .requeue _ _ | .cancel _ | .post _ _ | .postStep _ _
  | .produce _ _ _ | .requeueStep _ _ | .handler _ _ | .heartbeat _ | .promote _ _ | .expire _ =>
    isTrue trivial

/-- The executions of the task work on the entry or on its one successor, and its attempts
have two numbers. -/
structure EntryInv (e : TaskEnvelope) (s : Sys) : Prop where
  jobs : ∀ job ∈ s.jobs, job.envelope.taskId = e.taskId →
    job.envelope = e ∨ job.envelope = e.nextAttempt ∧ job.pc ≠ .closePrior
  rows : ∀ no, s.HasAttempt e.taskId no → no = e.attempt + 1 ∨ no = e.attempt + 2

/-- An attempt on record was there before the step, or a job has just recorded its own. -/
theorem Moves.hasAttempt_cases (h : s.Moves a s') {taskId : Uuid} {no : ℕ}
    (hattempt : s'.HasAttempt taskId no) :
    s.HasAttempt taskId no ∨ ∃ i job job', s.jobs[i]? = some job ∧
      job.pc = .execute .recordAttempt ∧ job.envelope.taskId = taskId ∧
      job.envelope.attemptNo = no ∧ s'.jobs = s.jobs.set i job' ∧
      job'.pc ≠ .execute .recordAttempt := by
  rw [hasAttempt_iff_ident] at hattempt ⊢
  obtain ⟨x, hx, hid, hno⟩ := hattempt
  rcases h.worker_cases with
    ⟨i, job, job', stores', -, hjob, hmove, rfl⟩ | ⟨job, -, -, hdb, -⟩ | ⟨-, -, hattempts, -⟩
  · rcases hmove.mem_ident_cases hx with hx | ⟨hpc, rfl⟩
    · exact Or.inl ⟨x, hx, hid, hno⟩
    · refine Or.inr ⟨i, job, job', hjob, hpc, hid, hno, rfl, fun hpc' => ?_⟩
      -- whoever comes to the record has acquired the lease in that step
      have hseq := (hmove.recordAttempt_cases hpc').2.1
      rcases hmove.lease_cases with ⟨hsame, -⟩ | ⟨hacquire, -⟩
      · omega
      · simp [hpc] at hacquire
  · exact Or.inl ⟨x, hdb ▸ hx, hid, hno⟩
  · exact Or.inl ⟨x, hattempts ▸ hx, hid, hno⟩

theorem EntryInv.jobs_step (h : EntryInv e s) (ha : OneEntry queue msgId e s a)
    (hmoves : s.Moves a s') : ∀ job ∈ s'.jobs, job.envelope.taskId = e.taskId →
      job.envelope = e ∨ job.envelope = e.nextAttempt ∧ job.pc ≠ .closePrior := by
  cases hmoves with
  | @job _ i job job' stores' hlabel hjob hmove =>
    apply Indexed.forall_mem_set h.jobs
    intro hid
    have hold := h.jobs job (List.mem_of_getElem? hjob) (hmove.taskId_eq ▸ hid)
    rcases hmove.envelope_cases with hsame | ⟨hpc, hnext⟩
    · rw [hsame]
      exact hold.imp_right fun hadopted => ⟨hadopted.1, hmove.pc_ne_closePrior⟩
    · -- the entry is incremented once, for the job leaves the reclaim loop with it
      rcases hold with he | ⟨-, hpc'⟩
      · exact Or.inr ⟨he ▸ hnext, hmove.pc_ne_closePrior⟩
      · exact absurd hpc hpc'
  | delivered hentry =>
    apply Indexed.forall_mem_append_singleton h.jobs
    exact fun hid => Or.inl (ha _ hentry hid).2.2
  | adopted hpending hentry =>
    apply Indexed.forall_mem_append_singleton h.jobs
    exact fun hid => Or.inl (ha _ hentry hid).2.2
  | post | posted | produced | requeued | requeue | cancelled | leases | promoted => exact h.jobs

theorem EntryInv.step (h : EntryInv e s) (ha : OneEntry queue msgId e s a)
    (hstep : s.step a = some s') : EntryInv e s' := by
  have hmoves := moves_of_step hstep
  refine ⟨h.jobs_step ha hmoves, fun no hattempt => ?_⟩
  rcases hmoves.hasAttempt_cases hattempt with hold | ⟨i, job, -, hjob, -, hid, rfl, -⟩
  · exact h.rows no hold
  · rcases h.jobs job (List.mem_of_getElem? hjob) hid with he | ⟨he, -⟩
    · exact Or.inl (by rw [he, TaskEnvelope.attemptNo])
    · exact Or.inr (by rw [he, TaskEnvelope.attemptNo, TaskEnvelope.nextAttempt_attempt])

theorem entryInv_of_reaches (h : Transition.ReachesWhen step (OneEntry queue msgId e) init s) :
    EntryInv e s := by
  apply h.invariant (I := EntryInv e) fun u b v hu hb hstep => hu.step hb hstep
  exact ⟨by simp [init], by simp [init, HasAttempt, Db.empty]⟩

/-- An adopted execution that is about to record its attempt is the first one to do so, and
the only one. -/
structure FirstInv (e : TaskEnvelope) (s : Sys) : Prop where
  free : ∀ job ∈ s.jobs, job.envelope = e.nextAttempt → job.pc = .execute .recordAttempt →
    ¬ s.HasAttempt e.taskId (e.attempt + 2)
  apart : Indexed.Apart (fun x y : Job => x.envelope = e.nextAttempt → y.envelope = e.nextAttempt →
    ¬ (x.pc = .execute .recordAttempt ∧ y.pc = .execute .recordAttempt)) s.jobs

/-- A job that is about to record its attempt was so before the step, or has just acquired
the lease. -/
theorem Moves.recording_cases (h : s.Moves a s') {j : ℕ} {job' : Job}
    (hjob' : s'.jobs[j]? = some job') (hpc' : job'.pc = .execute .recordAttempt) :
    s.jobs[j]? = some job' ∨ ∃ reply job, a = .jobStep j reply ∧ reply.applied = true ∧
      s.jobs[j]? = some job ∧ job.pc = .execute .acquireLease ∧
      job.envelope = job'.envelope ∧ s'.db = s.db := by
  rcases h.worker_cases with
    ⟨i, job, new, stores', hlabel, hjob, hmove, rfl⟩ | ⟨new, hnew, hjobs, -⟩ | ⟨hjobs, -⟩
  · by_cases hji : j = i
    · subst hji
      obtain rfl := Indexed.eq_of_getElem?_set hjob'
      obtain ⟨hdb, hseq, -⟩ := hmove.recordAttempt_cases hpc'
      -- the counter has moved, so the call took effect and was an acquisition
      have hstores : stores' ≠ s.stores := fun hsame => by simp [hsame] at hseq
      have hpc : job.pc = .execute .acquireLease := by
        rcases hmove.lease_cases with ⟨hsame, -⟩ | ⟨hpc, -⟩
        · omega
        · exact hpc
      rcases hlabel with ⟨reply, rfl, happlied⟩ | ⟨-, hsame⟩
      · refine Or.inr ⟨reply, job, rfl, ?_, hjob, hpc, ?_, hdb⟩
        · by_contra hnot
          exact hstores (happlied (by simpa using hnot))
        · exact (hmove.envelope_cases.resolve_right fun hclose => by simp [hpc] at hclose).symm
      · exact absurd hsame hstores
    · rw [setJob_jobs, Indexed.getElem?_set_of_ne hji] at hjob'
      exact Or.inl hjob'
  · rw [hjobs] at hjob'
    rcases Nat.lt_or_ge j s.jobs.length with hlt | hge
    · rw [List.getElem?_append_left hlt] at hjob'
      exact Or.inl hjob'
    · -- a new job is not that far
      have hmem : job' ∈ [new] := by
        rw [List.getElem?_append_right hge] at hjob'
        exact List.mem_of_getElem? hjob'
      obtain rfl := List.mem_singleton.mp hmem
      rcases hnew.pc with hpc | hpc <;> simp [hpc] at hpc'
  · exact Or.inl (hjobs ▸ hjob')

theorem FirstInv.free_step (h : FirstInv e s) (hentry : EntryInv e s) (ha : RecordsOnce e s a)
    (hmoves : s.Moves a s') : ∀ job ∈ s'.jobs, job.envelope = e.nextAttempt →
      job.pc = .execute .recordAttempt → ¬ s'.HasAttempt e.taskId (e.attempt + 2) := by
  intro job' hmem hadopted hpc' hattempt
  obtain ⟨j, hj⟩ := List.mem_iff_getElem?.mp hmem
  rcases hmoves.recording_cases hj hpc' with
    hjob | ⟨reply, job, rfl, happlied, hjob, hpc, he, hdb⟩
  · have hfree := h.free job' (List.mem_of_getElem? hjob) hadopted hpc'
    obtain ⟨i, other, new, hother, hpc, hid, hno, hjobs, hpcNew⟩ :=
      (hmoves.hasAttempt_cases hattempt).resolve_left hfree
    -- another execution with the same number was about to record, too
    have hadopted' : other.envelope = e.nextAttempt := by
      rcases hentry.jobs other (List.mem_of_getElem? hother) hid with he | ⟨he, -⟩
      · rw [he, TaskEnvelope.attemptNo] at hno
        omega
      · exact he
    have hne : j ≠ i := by
      rintro rfl
      rw [hjobs] at hj
      exact hpcNew (Indexed.eq_of_getElem?_set hj ▸ hpc')
    exact h.apart hjob hother hne hadopted hadopted' ⟨hpc', hpc⟩
  · obtain ⟨hfree, -⟩ := ha happlied job hjob hpc (he.trans hadopted)
    rw [HasAttempt, hdb] at hattempt
    exact hfree hattempt

theorem FirstInv.apart_step (h : FirstInv e s) (ha : RecordsOnce e s a) (hmoves : s.Moves a s') :
    Indexed.Apart (fun x y : Job => x.envelope = e.nextAttempt → y.envelope = e.nextAttempt →
      ¬ (x.pc = .execute .recordAttempt ∧ y.pc = .execute .recordAttempt)) s'.jobs := by
  rintro j k x y hx hy hjk hex hey ⟨hpcx, hpcy⟩
  rcases hmoves.recording_cases hx hpcx with
    hx' | ⟨reply, job, rfl, happlied, hjob, hpc, he, -⟩ <;>
  rcases hmoves.recording_cases hy hpcy with
    hy' | ⟨reply', job', hlabel, happlied', hjob', hpc', he', -⟩
  · exact h.apart hx' hy' hjk hex hey ⟨hpcx, hpcy⟩
  · -- `y` has acquired the lease while `x` was about to record
    subst hlabel
    have honly := (ha happlied' job' hjob' hpc' (he'.trans hey)).2
    exact honly x (List.mem_of_getElem? hx') hex hpcx
  · have honly := (ha happlied job hjob hpc (he.trans hex)).2
    exact honly y (List.mem_of_getElem? hy') hey hpcy
  · simp only [Action.jobStep.injEq] at hlabel
    exact hjk hlabel.1

theorem firstInv_of_reaches (h : Transition.ReachesWhen step
      (fun s a => OneEntry queue msgId e s a ∧ RecordsOnce e s a) init s) : FirstInv e s := by
  apply h.invariant_along (I := FirstInv e) ⟨by simp [init], Indexed.Apart.nil⟩
  intro u b v hrun hu hb hstep
  have hentry := entryInv_of_reaches (hrun.mono fun _ _ hP => hP.1)
  have hmoves := moves_of_step hstep
  exact ⟨hu.free_step hentry hb.2 hmoves, hu.apart_step hb.2 hmoves⟩

/-- **Attempt numbers across adoptions.** Take any run in which one stream entry of a task is
delivered and then adopted any number of times, whatever becomes of its executions. Every
adopted execution comes to the number that the entry's attempt plus two gives. When it is
about to record its attempt, the number is above those on record exactly when no other
adopted execution has recorded one; and if no adopted execution acquires the lease after
or while another one records its attempt, the number is fresh in every state of the run. -/
theorem adopted_numbers_fresh (s : Sys) (queue : String) (msgId : ℕ) (e : TaskEnvelope) :
    (Transition.ReachesWhen step (OneEntry queue msgId e) init s →
      ∀ job ∈ s.jobs, job.envelope = e.nextAttempt → job.pc = .execute .recordAttempt →
        job.envelope.attemptNo = e.attempt + 2 ∧
        ((∀ a ∈ s.db.attempts, a.taskId = e.taskId → a.attemptNo < job.envelope.attemptNo) ↔
          ¬ s.HasAttempt e.taskId (e.attempt + 2))) ∧
    (Transition.ReachesWhen step
        (fun s a => OneEntry queue msgId e s a ∧ RecordsOnce e s a) init s →
      ∀ job ∈ s.jobs, job.envelope = e.nextAttempt → job.pc = .execute .recordAttempt →
        ∀ a ∈ s.db.attempts, a.taskId = e.taskId → a.attemptNo < job.envelope.attemptNo) := by
  have hiff : Transition.ReachesWhen step (OneEntry queue msgId e) init s →
      ((∀ a ∈ s.db.attempts, a.taskId = e.taskId → a.attemptNo < e.attempt + 2) ↔
        ¬ s.HasAttempt e.taskId (e.attempt + 2)) := by
    intro h
    constructor
    · rintro hbelow ⟨a, ha, hid, hno⟩
      have := hbelow a ha hid
      omega
    · intro hfree a ha hid
      have htwo := (entryInv_of_reaches h).rows a.attemptNo ⟨a, ha, hid, rfl⟩
      have hne : a.attemptNo ≠ e.attempt + 2 := fun hno => hfree ⟨a, ha, hid, hno⟩
      omega
  constructor
  · intro h job hjob hadopted hpc
    have hno : job.envelope.attemptNo = e.attempt + 2 := by
      rw [hadopted, TaskEnvelope.attemptNo, TaskEnvelope.nextAttempt_attempt]
    rw [hno]
    exact ⟨rfl, hiff h⟩
  · intro h job hjob hadopted hpc
    rw [hadopted, TaskEnvelope.attemptNo, TaskEnvelope.nextAttempt_attempt]
    exact (hiff (h.mono fun _ _ hP => hP.1)).mpr
      ((firstInv_of_reaches h).free job hjob hadopted hpc)

end Adoptions

/-- The envelope of the task in the runs below. -/
def crashingEnvelope : TaskEnvelope :=
  CreateTaskRequest.envelope { queue := "q", taskName := "t", payload := .null } ⟨1⟩ 0

/-- The entry is delivered, and its worker dies in the handler. -/
def crashed : List Action :=
  accept 0 { queue := "q", taskName := "t", payload := .null } ⟨1⟩ ++
    [.deliver "a" 100 "q"] ++ proceeds 0 3 ++ [.jobStep 0 .crash]

/-- The lease runs out, and the entry is adopted as job `i`; the new worker makes `n` calls. -/
def adoptedAs (i n : ℕ) : List Action :=
  [.expire (Uuid.str ⟨1⟩), .adopt "b" 100 "q" 0] ++ proceeds i n

/-- The theorem after one crash: the adopted execution has a fresh number. -/
theorem adopted_numbers_fresh_once : ∃ (s : Sys) (job : Job), s.jobs[1]? = some job ∧
    job.pc = .execute .recordAttempt ∧ s.db.attempts ≠ [] ∧
    ∀ a ∈ s.db.attempts, a.taskId = ⟨1⟩ → a.attemptNo < job.envelope.attemptNo := by
  obtain ⟨s, hreach, hjobs, hattempts⟩ := Transition.exists_reachesWhen_of_check step
    (fun s a => OneEntry "q" 0 crashingEnvelope s a ∧ RecordsOnce crashingEnvelope s a) init
    (crashed ++ adoptedAs 1 2)
    (fun s => (s.jobs[1]?.any fun job => job.envelope = crashingEnvelope.nextAttempt ∧
      job.pc = .execute .recordAttempt) ∧ s.db.attempts ≠ []) (by decide +kernel)
  obtain ⟨job, hjob, hcheck⟩ := (Option.any_eq_true _ _).mp hjobs
  obtain ⟨hadopted, hpc⟩ := of_decide_eq_true hcheck
  exact ⟨s, job, hjob, hpc, hattempts, (adopted_numbers_fresh s "q" 0 crashingEnvelope).2 hreach
    job (List.mem_of_getElem? hjob) hadopted hpc⟩

/-- After a second crash the adopted execution comes to the number of the first adoption, and
its attempt is refused. -/
theorem second_adoption_refused : ∃ (s : Sys) (job : Job),
    Transition.ReachesWhen step
      (fun s a => WithoutRequeue s a ∧ OneEntry "q" 0 crashingEnvelope s a) init s ∧
    s.jobs[2]? = some job ∧ job.pc = .execute .recordAttempt ∧
    job.envelope = crashingEnvelope.nextAttempt ∧
    (∃ a ∈ s.db.attempts, a.taskId = ⟨1⟩ ∧ a.attemptNo = job.envelope.attemptNo) ∧
    (s.step (.jobStep 2 (.ok 0 0))).isNone := by
  obtain ⟨s, hreach, hjobs, hrefused⟩ := Transition.exists_reachesWhen_of_check step
    (fun s a => WithoutRequeue s a ∧ OneEntry "q" 0 crashingEnvelope s a) init
    (crashed ++ adoptedAs 1 4 ++ [.jobStep 1 .crash] ++ adoptedAs 2 2)
    (fun s => (s.jobs[2]?.any fun job => job.pc = .execute .recordAttempt ∧
        job.envelope = crashingEnvelope.nextAttempt ∧
        ∃ a ∈ s.db.attempts, a.taskId = ⟨1⟩ ∧ a.attemptNo = job.envelope.attemptNo) ∧
      (s.step (.jobStep 2 (.ok 0 0))).isNone) (by decide +kernel)
  obtain ⟨job, hjob, hcheck⟩ := (Option.any_eq_true _ _).mp hjobs
  obtain ⟨hpc, hadopted, htaken⟩ := of_decide_eq_true hcheck
  exact ⟨s, job, hreach, hjob, hpc, hadopted, htaken, hrefused⟩

end Sys

end Dtq
