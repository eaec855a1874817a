import Dtq.System.Custody
import Dtq.System.TaskStates

/-!
# How often a task is executed

The attempt counter travels in the envelope. A scheduled retry checks it against the
limit; the reclaim loop increments it without looking. What makes executions countable is
the unique key of `attempts`: a handler is started only after its attempt number was
recorded, and a number is recorded once. So the handler is started at most as often as
there are attempt numbers in reach, and if no entry is adopted at the limit, these are the
numbers from one to `max_attempts`.

## Main results

* `Sys.Reachable.startInv` — no two executions of a task share an attempt number
* `Sys.bounded_executions` — at most `max_attempts` executions, unless an entry of the
  last attempt is adopted
* `Sys.one_execution_too_many` — a limit of one, two executions
-/

set_option autoImplicit false

namespace Dtq

namespace Job

variable {job job' : Job} {stores stores' : Stores} {locks : Locks}

/-- The attempt is on record, and its handler is or may be started. -/
def OnRecord (job : Job) : Prop := job.started = true ∨ job.pc.Recorded

/-- The attempt as it will be when the reclaim loop has incremented it. -/
def reach (job : Job) : ℕ :=
  if job.pc = .closePrior then job.envelope.attempt + 1 else job.envelope.attempt

theorem attempt_le_reach (job : Job) : job.envelope.attempt ≤ job.reach := by
  unfold reach
  split <;> omega

theorem attempt_eq_reach (h : job.pc ≠ .closePrior) : job.reach = job.envelope.attempt :=
  if_neg h

theorem Proceeds.attempt_le_reach (h : job.Proceeds stores locks stores' job') :
    job'.pc ≠ .closePrior ∧ job'.envelope.attempt ≤ job.reach := by
  cases h with
  -- the one increment, which `reach` has already counted
  | closedPrior now hpc => exact ⟨by simp [adopted], by simp [adopted, reach, hpc]⟩
  | _ => exact ⟨by simp [goto, returns], job.attempt_le_reach⟩

/-- Nothing but the reclaim loop changes the attempt, and it does so once. -/
theorem Moves.reach_le (h : job.Moves stores locks stores' job') :
    job'.reach ≤ job.reach := by
  cases h with
  | proceeds h =>
    obtain ⟨hpc, hle⟩ := h.attempt_le_reach
    rwa [attempt_eq_reach hpc]
  | raisedAfter h hexc =>
    rw [attempt_eq_reach (by cases hexc <;> simp)]
    exact h.attempt_le_reach.2
  | failed hactive hexc =>
    rw [attempt_eq_reach (by cases hexc <;> simp)]
    exact job.attempt_le_reach
  | skippedPrior hpc => simp [adopted, reach, hpc]
  | handlerEnded =>
    rw [attempt_eq_reach (by simp [goto])]
    exact job.attempt_le_reach

/-- A job comes on record by inserting a new attempt, and then keeps its envelope. -/
theorem Proceeds.onRecord_cases (h : job.Proceeds stores locks stores' job')
    (hstart : job.pc = .closePrior → job.started = false) (hrec : job'.OnRecord) :
    job'.envelope = job.envelope ∧
      (job.OnRecord ∨
        (∀ other ∈ stores.db.attempts,
          ¬ (other.taskId = job.envelope.taskId ∧ other.attemptNo = job.envelope.attemptNo)) ∧
        stores'.db.attempts = stores.db.attempts ++ [job.attemptRow]) := by
  cases h with
  | closedPrior now hpc => simp [OnRecord, adopted, hstart hpc, Pc.Recorded] at hrec
  | recorded hpc hlock htask hnew => exact ⟨rfl, Or.inr ⟨hnew, rfl⟩⟩
  -- from here on the attempt has been recorded by this job itself
  | handlerStarted hpc | foundAbsent _ hpc | foundPresent _ _ hpc | inserted _ hpc =>
    exact ⟨rfl, Or.inl (Or.inr (by simp [hpc, Pc.Recorded]))⟩
  | _ =>
    refine ⟨rfl, Or.inl (Or.inl ?_)⟩
    simpa [OnRecord, goto, returns, Pc.Recorded] using hrec

theorem Moves.onRecord_cases (h : job.Moves stores locks stores' job')
    (hstart : job.pc = .closePrior → job.started = false) (hrec : job'.OnRecord) :
    job'.envelope = job.envelope ∧
      (job.OnRecord ∨
        (∀ other ∈ stores.db.attempts,
          ¬ (other.taskId = job.envelope.taskId ∧ other.attemptNo = job.envelope.attemptNo)) ∧
        stores'.db.attempts = stores.db.attempts ++ [job.attemptRow]) := by
  cases h with
  | proceeds h => exact h.onRecord_cases hstart hrec
  | @raisedAfter _ last pc h hexc =>
    have hstarted : last.started = true := by simpa [OnRecord, hexc.not_recorded] using hrec
    exact h.onRecord_cases hstart (Or.inl hstarted)
  | failed hactive hexc =>
    refine ⟨rfl, Or.inl (Or.inl ?_)⟩
    simpa [OnRecord, hexc.not_recorded] using hrec
  | skippedPrior hpc => simp [OnRecord, adopted, hstart hpc, Pc.Recorded] at hrec
  | handlerEnded hpc =>
    refine ⟨rfl, Or.inl (Or.inr ?_)⟩
    rcases hpc with hpc | hpc <;> simp [hpc, Pc.Recorded]

/-- No move leads to the reclaim loop. -/
theorem Moves.pc_ne_closePrior (h : job.Moves stores locks stores' job') :
    job'.pc ≠ .closePrior := by
  cases h with
  | proceeds h => cases h <;> simp [adopted, goto, returns]
  | raisedAfter h hexc | failed hactive hexc => cases hexc <;> simp
  | skippedPrior => simp [adopted]
  | handlerEnded => simp [goto]

end Job

namespace Sys

variable {s s' : Sys} {a : Action}

/-- Two jobs that are not executions of the same attempt. -/
def SeparateAttempts (a b : Job) : Prop :=
  a.OnRecord → b.OnRecord →
    ¬ (a.envelope.taskId = b.envelope.taskId ∧ a.envelope.attemptNo = b.envelope.attemptNo)

theorem SeparateAttempts.symm {a b : Job} (h : SeparateAttempts a b) : SeparateAttempts b a :=
  fun hb ha hsame => h ha hb ⟨hsame.1.symm, hsame.2.symm⟩

/-- Every execution has its own attempt number on record. -/
structure StartInv (s : Sys) : Prop where
  adopting : ∀ job ∈ s.jobs, job.pc = .closePrior → job.started = false
  recorded : ∀ job ∈ s.jobs, job.OnRecord →
    ∃ x ∈ s.db.attempts.map AttemptRow.ident,
      x.1 = job.envelope.taskId ∧ x.2.1 = job.envelope.attemptNo
  apart : Indexed.Apart SeparateAttempts s.jobs

/-- A move of one job keeps executions apart. -/
theorem StartInv.job {i : ℕ} {job job' : Job} {stores' : Stores} (h : s.StartInv)
    (hjob : s.jobs[i]? = some job) (hmove : job.Moves s.stores s.locks stores' job') :
    (s.setJob i stores' job').StartInv := by
  have hmem := List.mem_of_getElem? hjob
  refine ⟨?_, ?_, ?_⟩
  · apply Indexed.forall_mem_set h.adopting
    exact fun hpc => absurd hpc hmove.pc_ne_closePrior
  · apply Indexed.forall_mem_set
    · intro other hother hrec
      obtain ⟨x, hx, hident⟩ := h.recorded other hother hrec
      exact ⟨x, hmove.ident_kept x hx, hident⟩
    · intro hrec
      obtain ⟨henvelope, hold | ⟨-, happend⟩⟩ :=
        hmove.onRecord_cases (h.adopting job hmem) hrec
      · obtain ⟨x, hx, hident⟩ := h.recorded job hmem hold
        exact ⟨x, hmove.ident_kept x hx, henvelope ▸ hident⟩
      · refine ⟨job.attemptRow.ident, ?_, by rw [henvelope]; exact ⟨rfl, rfl⟩⟩
        rw [setJob_db, happend, List.map_append]
        exact List.mem_append_right _ (List.mem_singleton.mpr rfl)
  · apply h.apart.set fun _ _ => SeparateAttempts.symm
    intro j other hj hother hrec hotherRec hsame
    obtain ⟨henvelope, hold | ⟨hnew, -⟩⟩ := hmove.onRecord_cases (h.adopting job hmem) hrec
    · exact h.apart hjob hother hj.symm hold hotherRec (henvelope ▸ hsame)
    · -- the other execution's number was already in the table
      obtain ⟨x, hx, hid, hno⟩ := h.recorded other (List.mem_of_getElem? hother) hotherRec
      obtain ⟨row, hrow, rfl⟩ := List.mem_map.mp hx
      rw [henvelope] at hsame
      exact hnew row hrow ⟨hid.trans hsame.1.symm, hno.trans hsame.2.symm⟩

theorem StartInv.step (h : s.StartInv) (hstep : s.step a = some s') : s'.StartInv := by
  rcases (moves_of_step hstep).worker_cases with
    ⟨i, job, job', stores', -, hjob, hmove, rfl⟩ | ⟨job, hnew, hjobs, hdb, -⟩ |
      ⟨hjobs, -, hattempts, -⟩
  · exact h.job hjob hmove
  · have hnone : ¬ job.OnRecord := by
      rcases hnew.pc with hpc | hpc <;> simp [Job.OnRecord, hnew.started, hpc, Pc.Recorded]
    refine ⟨?_, ?_, ?_⟩ <;> rw [hjobs] <;> try rw [hdb]
    · exact Indexed.forall_mem_append_singleton h.adopting fun _ => hnew.started
    · exact Indexed.forall_mem_append_singleton h.recorded fun hrec => absurd hrec hnone
    · apply h.apart.append_singleton fun _ _ => SeparateAttempts.symm
      exact fun _ _ hrec => absurd hrec hnone
  · refine ⟨?_, ?_, ?_⟩ <;> simp only [hjobs, hattempts]
    exacts [h.adopting, h.recorded, h.apart]

/-- No two executions of a task share an attempt number, in any reachable state. -/
theorem Reachable.startInv (h : s.Reachable) : s.StartInv := by
  apply Transition.Reaches.invariant (fun _ _ _ hinv hstep => hinv.step hstep) h
  exact ⟨by simp [init], by simp [init], Indexed.Apart.nil⟩

/-! ### Attempts within the limit -/

/-- Nothing is requeued, and an entry is adopted only if the attempt after the interrupted
one is within the limit. -/
def AdoptsBelowLimit (s : Sys) (a : Action) : Prop :=
  match a with
  | .requeue _ _ => False
  | .adopt _ _ queue msgId => ∀ e ∈ (s.redis.queues queue).stream[msgId]?,
      ((e.attempt + 1 : ℕ) : ℤ) < e.retryPolicy.maxAttempts
  | _ => True

instance (s : Sys) : DecidablePred (AdoptsBelowLimit s)
  | .requeue _ _ => isFalse id
  | .adopt _ _ queue msgId => inferInstanceAs (Decidable (
      ∀ e ∈ (s.redis.queues queue).stream[msgId]?,
        ((e.attempt + 1 : ℕ) : ℤ) < e.retryPolicy.maxAttempts))
  | .cancel _ | .post _ _ | .postStep _ _ | .jobStep _ _ | .produce _ _ _ | .requeueStep _ _
  | .deliver _ _ _ | .handler _ _ | .heartbeat _ | .promote _ _ | .expire _ => isTrue trivial

theorem withoutRequeue_of_adoptsBelowLimit (h : AdoptsBelowLimit s a) : WithoutRequeue s a := by
  cases a <;> first | rfl | exact h.elim

/-- Attempts of a request's task stay below its limit. -/
structure LimitInv (s : Sys) : Prop where
  entries : ∀ post ∈ s.posts, 1 ≤ post.req.maxAttempts → ∀ queue e,
    (s.redis.queues queue).Holds e → e.taskId = post.taskId →
      (e.attempt : ℤ) < post.req.maxAttempts
  jobs : ∀ post ∈ s.posts, 1 ≤ post.req.maxAttempts → ∀ job ∈ s.jobs,
    job.envelope.taskId = post.taskId → (job.reach : ℤ) < post.req.maxAttempts

/-- An envelope of a request's task carries the request's limit. -/
theorem CustodyInv.limit_eq (hcustody : s.CustodyInv) (hbooks : s.EnqueueInv) {queue : String}
    {e : TaskEnvelope} (hholds : (s.redis.queues queue).Holds e) {post : Post}
    (hpost : post ∈ s.posts) (hid : e.taskId = post.taskId) :
    e.retryPolicy.maxAttempts = post.req.maxAttempts := by
  obtain ⟨e₀, he₀, hsame⟩ := hcustody.origin queue e hholds
  obtain ⟨-, now, henvelope⟩ := hbooks.sent _ he₀ post hpost (hsame.taskId_eq.trans hid).symm
  simp only at henvelope
  rw [← hsame.retryPolicy_eq, henvelope]
  rfl

/-- A job's envelope is an attempt of an entry of its queue. -/
theorem CustodyInv.job_entry (hcustody : s.CustodyInv) {job : Job} (hjob : job ∈ s.jobs) :
    ∃ e, (s.redis.queues job.queue).Holds e ∧ e.SameTask job.envelope := by
  obtain ⟨-, e, he, hsame⟩ := hcustody.jobs job hjob
  exact ⟨e, Or.inl (List.mem_of_getElem? he), hsame⟩

/-- Nothing on the queues, and no job, is of a task whose id has not been drawn. -/
theorem CustodyInv.not_fresh (hcustody : s.CustodyInv) {queue : String} {e : TaskEnvelope}
    (hholds : (s.redis.queues queue).Holds e) : ¬ s.Fresh e.taskId := by
  intro hfresh
  obtain ⟨e₀, he₀, hsame⟩ := hcustody.origin queue e hholds
  exact hfresh.2 _ he₀ hsame.taskId_eq

theorem LimitInv.entries_step (h : s.LimitInv) (hcustody : s.CustodyInv) (hbooks : s.EnqueueInv)
    (hbooks' : s'.EnqueueInv) (hmoves : s.Moves a s') :
    ∀ post ∈ s'.posts, 1 ≤ post.req.maxAttempts → ∀ queue e,
      (s'.redis.queues queue).Holds e → e.taskId = post.taskId →
        (e.attempt : ℤ) < post.req.maxAttempts := by
  intro post' hpost' hlimit queue e hholds hid
  rcases hmoves.posts_cases hpost' with ⟨post, hpost, hreq, htask⟩ | ⟨hfresh, -, rfl⟩
  · rw [← hreq] at hlimit ⊢
    rcases hmoves.holds_cases hholds with hold | henqueued | ⟨r, hr, -⟩ | ⟨job, hjob, -, -, hfrom⟩
    · exact h.entries post hpost hlimit queue e hold (hid.trans htask.symm)
    · -- a new envelope starts at attempt zero
      obtain ⟨-, now, henvelope⟩ := hbooks'.sent (queue, e) (by simp [henqueued]) post' hpost'
        hid.symm
      simp only at henvelope
      rw [henvelope]
      exact Int.lt_of_lt_of_le (by simp [CreateTaskRequest.envelope]) hlimit
    · simp [hcustody.requeues] at hr
    · -- a dead letter keeps the attempt, a retry increments it
      obtain ⟨x, hx, hsame⟩ := hcustody.job_entry hjob
      rcases hfrom with rfl | ⟨rfl, hbelow⟩
      · have hreach := h.jobs post hpost hlimit job hjob (hid.trans htask.symm)
        have hle := job.attempt_le_reach
        omega
      · -- the retry was checked against the limit
        have hxid : x.taskId = post.taskId := hsame.taskId_eq.trans (hid.trans htask.symm)
        rw [← hsame.retryPolicy_eq, hcustody.limit_eq hbooks hx hpost hxid] at hbelow
        exact hbelow
  · exact absurd (hid ▸ hfresh) (hcustody.not_fresh hholds)

theorem LimitInv.jobs_step (h : s.LimitInv) (hcustody : s.CustodyInv) (hbooks : s.EnqueueInv)
    (ha : AdoptsBelowLimit s a) (hmoves : s.Moves a s') :
    ∀ post ∈ s'.posts, 1 ≤ post.req.maxAttempts → ∀ job ∈ s'.jobs,
      job.envelope.taskId = post.taskId → (job.reach : ℤ) < post.req.maxAttempts := by
  intro post' hpost' hlimit
  rcases hmoves.posts_cases hpost' with ⟨post, hpost, hreq, htask⟩ | ⟨hfresh, -, rfl⟩
  · rw [← hreq] at hlimit ⊢
    rw [← htask]
    have hold := h.jobs post hpost hlimit
    cases hmoves with
    | @job _ i job job' stores' hlabel hjob hmove =>
      apply Indexed.forall_mem_set hold
      intro hid
      have hbefore := hold job (List.mem_of_getElem? hjob) (hmove.taskId_eq ▸ hid)
      have hle := hmove.reach_le
      omega
    | delivered hentry =>
      apply Indexed.forall_mem_append_singleton hold
      intro hid
      rw [Job.attempt_eq_reach (by simp [deliveredJob])]
      exact h.entries post hpost hlimit _ _ (Or.inl (List.mem_of_getElem? hentry)) hid
    | adopted hpending hentry =>
      apply Indexed.forall_mem_append_singleton hold
      intro hid
      -- this is where the run's condition is used
      have hbelow := ha _ hentry
      rw [hcustody.limit_eq hbooks (Or.inl (List.mem_of_getElem? hentry)) hpost hid] at hbelow
      simpa [Job.reach, deliveredJob] using hbelow
    | post | posted | produced | requeued | requeue | cancelled | leases | promoted =>
      exact hold
  · intro job hjob hid
    obtain ⟨x, hx, hsame⟩ := hcustody.job_entry hjob
    exact absurd ((hsame.taskId_eq.trans hid) ▸ hfresh) (hcustody.not_fresh hx)

/-- Attempts stay below the limit in every run in which none is adopted at the limit. -/
theorem limitInv_of_reaches (h : Transition.ReachesWhen step AdoptsBelowLimit init s) :
    s.LimitInv := by
  apply h.invariant_along (I := LimitInv) ⟨by simp [init], by simp [init]⟩
  intro s a s' hrun hlimit ha hstep
  have hreach : s.Reachable := hrun.reaches
  have hcustody : s.CustodyInv :=
    custodyInv_of_reaches (hrun.mono fun _ _ => withoutRequeue_of_adoptsBelowLimit)
  have hmoves := moves_of_step hstep
  constructor
  · exact hlimit.entries_step hcustody hreach.enqueueInv (hreach.enqueueInv.step hstep) hmoves
  · exact hlimit.jobs_step hcustody hreach.enqueueInv ha hmoves

/-- The executions of a task whose handler was started. -/
def executions (s : Sys) (taskId : Uuid) : List Job :=
  s.jobs.filter fun job => job.started ∧ job.envelope.taskId = taskId

theorem mem_executions {taskId : Uuid} {job : Job} :
    job ∈ s.executions taskId ↔
      job ∈ s.jobs ∧ job.started = true ∧ job.envelope.taskId = taskId := by
  simp [executions]

/-- **Bounded executions.** In every run without requeues, with any crashes, in which no
entry is adopted whose interrupted attempt was the last one: the handler of a task with
`max_attempts = n ≥ 1` is started at most `n` times. -/
theorem bounded_executions (h : Transition.ReachesWhen step AdoptsBelowLimit init s) :
    ∀ task ∈ s.db.tasks, 1 ≤ task.maxAttempts →
      ((s.executions task.id).length : ℤ) ≤ task.maxAttempts := by
  intro task htask hlimit
  have hreach : s.Reachable := h.reaches
  have hstart := hreach.startInv
  obtain ⟨post, hpost, -, hid, hcore⟩ := hreach.enqueueInv.exists_post htask
  have hmax : task.maxAttempts = post.req.maxAttempts :=
    congrArg (fun core : TaskRow => core.maxAttempts) hcore
  obtain ⟨n, hn⟩ : ∃ n : ℕ, task.maxAttempts = n := Int.eq_ofNat_of_zero_le (by omega)
  -- the attempts of the executions are different numbers below the limit
  have hnodup : ((s.executions task.id).map fun job => job.envelope.attempt).Nodup := by
    rw [List.Nodup, List.pairwise_map]
    have hpairs : (s.executions task.id).Pairwise SeparateAttempts :=
      hstart.apart.pairwise.filter _
    refine hpairs.imp_of_mem fun {x y} hx hy hsep heq => ?_
    obtain ⟨-, hxstarted, hxid⟩ := mem_executions.mp hx
    obtain ⟨-, hystarted, hyid⟩ := mem_executions.mp hy
    exact hsep (Or.inl hxstarted) (Or.inl hystarted)
      ⟨hxid.trans hyid.symm, congrArg Nat.succ heq⟩
  have hbelow : ((s.executions task.id).map fun job => job.envelope.attempt) ⊆ List.range n := by
    intro k hk
    obtain ⟨job, hjob, rfl⟩ := List.mem_map.mp hk
    obtain ⟨hmem, -, hjobId⟩ := mem_executions.mp hjob
    have hreachLt := (limitInv_of_reaches h).jobs post hpost (hmax ▸ hlimit) job hmem
      (hjobId.trans hid.symm)
    have hle := job.attempt_le_reach
    rw [List.mem_range]
    omega
  -- and there are only `n` of them
  have hlength := (hnodup.subperm hbelow).length_le
  rw [List.length_map, List.length_range] at hlength
  rw [hn]
  exact_mod_cast hlength

/-- A task that may be attempted `maxAttempts` times; its worker dies while the first handler
runs; its entry is adopted and the handler is started again. -/
def crashedAndAdopted (maxAttempts : ℤ) : List Action :=
  accept 0 { queue := "q", taskName := "t", payload := .null, maxAttempts := maxAttempts } ⟨1⟩ ++
    [.deliver "a" 100 "q"] ++ proceeds 0 3 ++
    [.jobStep 0 .crash, .expire (Uuid.str ⟨1⟩), .adopt "b" 100 "q" 0] ++ proceeds 1 4

/-- The theorem at a limit of two: a crash and an adoption use it up. -/
theorem bounded_executions_two : ∃ s : Sys, (s.executions ⟨1⟩).length = 2 ∧
    ∃ task ∈ s.db.tasks, task.id = ⟨1⟩ ∧ task.maxAttempts = 2 ∧
      ((s.executions task.id).length : ℤ) ≤ task.maxAttempts := by
  obtain ⟨s, hreach, hlength, task, htask, hid, hmax⟩ :=
    Transition.exists_reachesWhen_of_check step AdoptsBelowLimit init (crashedAndAdopted 2)
    (fun s => (s.executions ⟨1⟩).length = 2 ∧
      ∃ task ∈ s.db.tasks, task.id = ⟨1⟩ ∧ task.maxAttempts = 2)
    (by decide +kernel)
  exact ⟨s, hlength, task, htask, hid, hmax,
    bounded_executions hreach task htask (by rw [hmax]; decide)⟩

/-- A limit of one: the handler was started once, its worker died, and the reclaim loop
starts it again. -/
theorem one_execution_too_many : ∃ s : Sys,
    Transition.ReachesWhen step WithoutRequeue init s ∧
    ∃ task ∈ s.db.tasks, 1 ≤ task.maxAttempts ∧
      ¬ ((s.executions task.id).length : ℤ) ≤ task.maxAttempts := by
  obtain ⟨s, hreach, hcheck⟩ := Transition.exists_reachesWhen_of_check step WithoutRequeue init
    (crashedAndAdopted 1)
    (fun s => ∃ task ∈ s.db.tasks, 1 ≤ task.maxAttempts ∧
      ¬ ((s.executions task.id).length : ℤ) ≤ task.maxAttempts)
    (by decide +kernel)
  exact ⟨s, hreach, hcheck⟩

end Sys

end Dtq
