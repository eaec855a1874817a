import Dtq.System.Effects

/-!
# Zombies

A worker whose lease has expired may still be running. If another worker has acquired
the same task in the meantime, the first one holds an older fence and should not commit.
`commit_effect` can only notice this from a row that the other worker has already
committed: nothing compares the fence with the lease, and the heartbeat that finds the
lease lost does not stop the handler.

So a superseded job is kept from committing exactly when a row under its key is there
before its commit transaction starts.

## Main results

* `Sys.zombie_fenced_iff` — when a superseded job can no longer commit
* `Sys.zombie_commits` — a superseded job that commits
-/

set_option autoImplicit false

namespace Dtq

/-- `execute` has not reached the end of a commit transaction. -/
def Pc.Early : Pc → Prop
  | .closePrior => True
  | .execute pc =>
    match pc with
    | .acquireLease | .recordAttempt | .startHandler | .handlerRunning | .selectEffect _
    | .insertEffect _ | .commitSuccess _ _ => True
    | .abandon _ | .closeFailed _ _ | .rollback _ | .releaseLease _ _ => False
  | .returned _ _ | .markDead | .ack | .ended => False

theorem Pc.Exceptional.not_early {pc : Pc} (h : pc.Exceptional) : ¬ pc.Early := by
  cases h <;> exact id

namespace Job

/-- The commit transaction of the job has not started. -/
def BeforeCommit (job : Job) : Prop :=
  job.pc = .execute .recordAttempt ∨ job.pc = .execute .startHandler ∨
    job.pc = .execute .handlerRunning ∨ ∃ result, job.pc = .execute (.selectEffect result)

/-- The job has committed nothing and is not about to. -/
structure Unarmed (job : Job) : Prop where
  committed : job.committed = false
  insert : ∀ result, job.pc ≠ .execute (.insertEffect result)
  commit : ∀ result, job.pc ≠ .execute (.commitSuccess result true)

variable {job job' : Job} {stores stores' : Stores} {locks : Locks}

theorem BeforeCommit.early (h : job.BeforeCommit) : job.pc.Early := by
  rcases h with h | h | h | ⟨result, h⟩ <;> simp [h, Pc.Early]

/-- A job that is still before its commit was so all along. -/
theorem Moves.early_cases (h : job.Moves stores locks stores' job') (hearly : job'.pc.Early) :
    job.pc.Early ∧ job'.committed = job.committed := by
  cases h with
  | proceeds h => cases h <;> simp_all [Pc.Early, goto, returns, adopted]
  | raisedAfter h hexc | failed hactive hexc => exact absurd hearly hexc.not_early
  | skippedPrior hpc => simp [hpc, Pc.Early, adopted]
  | handlerEnded hpc hnext =>
    refine ⟨?_, rfl⟩
    rcases hpc with hpc | hpc <;> simp [hpc, Pc.Early]

/-- The way to a commit leads through a lookup that finds no row. -/
theorem Unarmed.moves (h : job.Unarmed) (hmove : job.Moves stores locks stores' job')
    (hselect : ∀ result, job.pc = .execute (.selectEffect result) →
      stores.db.HasEffect job.key) : job'.Unarmed := by
  refine ⟨?_, ?_, ?_⟩
  · obtain ⟨-, hsame⟩ | ⟨result, hpc, -⟩ := hmove.effects_cases
    · exact hsame.trans h.committed
    · exact absurd hpc (h.commit result)
  · intro result hpc'
    cases hmove with
    | proceeds hproceeds =>
      cases hproceeds with
      | foundAbsent result' hpc hnone => exact hnone (hselect result' hpc)
      | _ => simp [goto, returns, adopted] at hpc'
    | raisedAfter _ hexc | failed _ hexc => cases hexc <;> simp at hpc'
    | skippedPrior => simp [adopted] at hpc'
    | handlerEnded hpc hnext =>
      obtain ⟨r, rfl⟩ | ⟨type, text, rfl⟩ := hnext <;> simp [goto] at hpc'
  · -- and an `INSERT` is made only after that lookup
    intro result hpc'
    exact h.insert result (hmove.commitSuccess_true_cases hpc').1

end Job

namespace Sys

variable {s s' : Sys} {a : Action} {i : ℕ}

/-- Job number `i` has committed an effect. -/
def CommittedAt (s : Sys) (i : ℕ) : Prop :=
  ∃ job, s.jobs[i]? = some job ∧ job.committed = true

/-- Another job has acquired the lease of the same task with a higher fence. -/
def Superseded (s : Sys) (job : Job) : Prop :=
  0 < job.fence ∧
    ∃ other ∈ s.jobs, other.envelope.taskId = job.envelope.taskId ∧ job.fence < other.fence

/-- When job number `i` looks for its effect, a row is there. -/
def LooksUpCommitted (i : ℕ) (s : Sys) (a : Action) : Prop :=
  ∀ reply job result, a = .jobStep i reply → s.jobs[i]? = some job →
    job.pc = .execute (.selectEffect result) → s.db.HasEffect job.key

/-- A job that has not finished its commit transaction has committed nothing. -/
theorem Reachable.committed_of_early (h : s.Reachable) :
    ∀ job ∈ s.jobs, job.pc.Early → job.committed = false := by
  apply Transition.Reaches.invariant (I := fun s : Sys =>
    ∀ job ∈ s.jobs, job.pc.Early → job.committed = false) ?_ h
  · simp [init]
  · intro s a s' hinv hstep
    rcases (moves_of_step hstep).worker_cases with
      ⟨i, job, job', stores', -, hjob, hmove, rfl⟩ | ⟨job, hnew, hjobs, -⟩ | ⟨hjobs, -⟩
    · apply Indexed.forall_mem_set hinv
      intro hearly
      obtain ⟨hbefore, hsame⟩ := hmove.early_cases hearly
      exact hsame.trans (hinv job (List.mem_of_getElem? hjob) hbefore)
    · rw [hjobs]
      exact Indexed.forall_mem_append_singleton hinv fun _ => hnew.committed
    · rw [hjobs]
      exact hinv

/-- One step keeps job `i` from committing when a lookup it makes finds a row. -/
theorem unarmed_step {key : String} (hstep : s.step a = some s')
    (hselect : ∀ job result, s.jobs[i]? = some job →
      (∃ reply, a = .jobStep i reply) → job.pc = .execute (.selectEffect result) →
        s.db.HasEffect job.key)
    (h : ∃ job : Job, s.jobs[i]? = some job ∧ job.key = key ∧ job.Unarmed) :
    ∃ job : Job, s'.jobs[i]? = some job ∧ job.key = key ∧ job.Unarmed := by
  obtain ⟨job, hjob, hkey, hunarmed⟩ := h
  rcases (moves_of_step hstep).worker_cases with
    ⟨k, moved, moved', stores', ha, hmoved, hmove, rfl⟩ | ⟨new, -, hjobs, -⟩ | ⟨hjobs, -⟩
  · by_cases hk : i = k
    · subst hk
      obtain rfl : job = moved := Option.mem_unique hjob hmoved
      refine ⟨moved', Indexed.getElem?_set_of_eq hjob, hmove.key_eq.trans hkey,
        hunarmed.moves hmove fun result hpc => ?_⟩
      -- the end of a handler makes no lookup, so the step is the job's own call
      rcases ha with ⟨reply, ha, -⟩ | ⟨⟨outcome, rfl⟩, -⟩
      · exact hselect job result hjob ⟨reply, ha⟩ hpc
      · obtain ⟨job', hends⟩ : ∃ job', job.handlerEnds outcome = some job' := by
          simp only [Sys.step, hjob, Option.bind_some, Option.map_eq_some_iff] at hstep
          obtain ⟨job', hends, -⟩ := hstep
          exact ⟨job', hends⟩
        exfalso
        cases outcome <;> simp [Job.handlerEnds, hpc] at hends
    · refine ⟨job, ?_, hkey, hunarmed⟩
      rw [setJob_jobs, Indexed.getElem?_set_of_ne hk]
      exact hjob
  · obtain ⟨hlt, -⟩ := List.getElem?_eq_some_iff.mp hjob
    refine ⟨job, ?_, hkey, hunarmed⟩
    rw [hjobs, List.getElem?_append_left hlt]
    exact hjob
  · exact ⟨job, hjobs ▸ hjob, hkey, hunarmed⟩

/-! ### A run in which everybody else stops -/

/-- All jobs but one may die, one after the other. -/
theorem exists_jobs_ended (s : Sys) (i n : ℕ) :
    ∃ s', Transition.Reaches step s s' ∧ s'.db = s.db ∧ s'.jobs[i]? = s.jobs[i]? ∧
      s'.requeues = s.requeues ∧ s'.jobs.length = s.jobs.length ∧
      ∀ k < n, k ≠ i → ∀ job, s'.jobs[k]? = some job → job.pc = .ended := by
  induction n with
  | zero => exact ⟨s, .refl s, rfl, rfl, rfl, rfl, by simp⟩
  | succ n ih =>
    obtain ⟨t, hreach, hdb, hi, hrequeues, hlength, hended⟩ := ih
    by_cases hdone : n = i ∨ ∀ job, t.jobs[n]? = some job → job.pc = .ended
    · -- nobody at position `n` needs to die
      refine ⟨t, hreach, hdb, hi, hrequeues, hlength, fun k hk hne job hjob => ?_⟩
      rcases Nat.lt_succ_iff_lt_or_eq.mp hk with hk | rfl
      · exact hended k hk hne job hjob
      · exact hdone.resolve_left hne job hjob
    · -- the job at position `n` dies
      push Not at hdone
      obtain ⟨hne, job, hjob, hactive⟩ := hdone
      refine ⟨t.setJob n t.stores { job with pc := .ended },
        hreach.tail (a := .jobStep n .crash) trivial ?_, hdb, ?_, hrequeues, ?_, ?_⟩
      · simp [Sys.step, hjob, stepJob, Job.Active, hactive]
      · rw [setJob_jobs, Indexed.getElem?_set_of_ne (Ne.symm hne), hi]
      · rw [setJob_jobs, List.length_set, hlength]
      · intro k hk hki other hother
        rw [setJob_jobs] at hother
        by_cases hkn : k = n
        · subst hkn
          rw [Indexed.eq_of_getElem?_set hother]
        · rw [Indexed.getElem?_set_of_ne hkn] at hother
          exact hended k (by omega) hki other hother

/-- All requeue requests may die, one after the other. -/
theorem exists_requeues_ended (s : Sys) (n : ℕ) :
    ∃ s', Transition.Reaches step s s' ∧ s'.db = s.db ∧ s'.jobs = s.jobs ∧
      s'.requeues.length = s.requeues.length ∧
      ∀ k < n, ∀ requeue, s'.requeues[k]? = some requeue → requeue.pc = .ended := by
  induction n with
  | zero => exact ⟨s, .refl s, rfl, rfl, rfl, by simp⟩
  | succ n ih =>
    obtain ⟨t, hreach, hdb, hjobs, hlength, hended⟩ := ih
    by_cases hdone : ∀ requeue, t.requeues[n]? = some requeue → requeue.pc = .ended
    · refine ⟨t, hreach, hdb, hjobs, hlength, fun k hk requeue hrequeue => ?_⟩
      rcases Nat.lt_succ_iff_lt_or_eq.mp hk with hk | rfl
      · exact hended k hk requeue hrequeue
      · exact hdone requeue hrequeue
    · push Not at hdone
      obtain ⟨requeue, hrequeue, hactive⟩ := hdone
      refine ⟨t.setRequeue n t.stores { requeue with pc := .ended },
        hreach.tail (a := .requeueStep n .crash) trivial ?_, hdb, hjobs, ?_, ?_⟩
      · simp [Sys.step, hrequeue, stepRequeue, hactive]
      · rw [setRequeue_requeues, List.length_set, hlength]
      · intro k hk other hother
        rw [setRequeue_requeues] at hother
        by_cases hkn : k = n
        · subst hkn
          rw [Indexed.eq_of_getElem?_set hother]
        · rw [Indexed.getElem?_set_of_ne hkn] at hother
          exact hended k (by omega) other hother

/-- Everybody but one job may stop, and then nothing is locked. -/
theorem exists_quiet (s : Sys) {job : Job} (hjob : s.jobs[i]? = some job)
    (hfree : ∀ key, job.inserting key = false) :
    ∃ s', Transition.Reaches step s s' ∧ s'.db = s.db ∧ s'.jobs[i]? = some job ∧
      (∀ key, s'.locks.inserting key = false) ∧ ∀ taskId, s'.locks.updating taskId = false := by
  obtain ⟨t, hreach, hdb, hi, -, hlength, hended⟩ := exists_jobs_ended s i s.jobs.length
  obtain ⟨u, hreach', hdb', hjobs, hlength', hended'⟩ :=
    exists_requeues_ended t t.requeues.length
  have hui : u.jobs[i]? = some job := by rw [hjobs, hi, hjob]
  have hothers : ∀ k ≠ i, ∀ other, u.jobs[k]? = some other → other.pc = .ended := by
    intro k hk other hother
    rw [hjobs] at hother
    obtain ⟨hlt, -⟩ := List.getElem?_eq_some_iff.mp hother
    exact hended k (hlength ▸ hlt) hk other hother
  refine ⟨u, hreach.trans hreach', hdb'.trans hdb, hui, fun key => ?_, fun taskId => ?_⟩
  · refine List.any_eq_false.mpr fun other hother => ?_
    obtain ⟨k, hk⟩ := List.mem_iff_getElem?.mp hother
    by_cases hki : k = i
    · subst hki
      obtain rfl := Option.mem_unique hui hk
      simp [hfree key]
    · simp [Job.inserting, hothers k hki other hk]
  · refine List.any_eq_false.mpr fun requeue hrequeue => ?_
    obtain ⟨k, hk⟩ := List.mem_iff_getElem?.mp hrequeue
    obtain ⟨hlt, -⟩ := List.getElem?_eq_some_iff.mp hk
    simp [Requeue.updating, hended' k (hlength' ▸ hlt) requeue hk]

/-- A job that looks for its effect and finds none can go on to commit one. -/
theorem exists_commit {job : Job} {result : Option Json} (hjob : s.jobs[i]? = some job)
    (hpc : job.pc = .execute (.selectEffect result)) (hnone : ¬ s.db.HasEffect job.key) :
    ∃ s', Transition.Reaches step s s' ∧ s'.CommittedAt i := by
  obtain ⟨t, hreach, hdb, hi, hins, hupd⟩ :=
    exists_quiet s hjob (by simp [Job.inserting, hpc])
  rw [← hdb] at hnone
  -- the lookup, the `INSERT` and the `COMMIT` all return
  have hselect : job.proceed t.stores t.locks 0 0 =
      some (t.stores, job.goto (.insertEffect result)) := by
    simp [Job.proceed, hpc, Job.executeOk, Db.checkEffect_eq_absent_iff.mpr hnone]
  set t₁ := t.setJob i t.stores (job.goto (.insertEffect result))
  have hi₁ : t₁.jobs[i]? = some (job.goto (.insertEffect result)) :=
    Indexed.getElem?_set_of_eq hi
  have hlock₁ : t₁.locks.inserting job.key = false := by
    refine List.any_eq_false.mpr fun other hother => ?_
    rcases List.mem_or_eq_of_mem_set hother with hold | rfl
    · simpa using List.any_eq_false.mp (hins job.key) other hold
    · simp [Job.inserting, Job.goto]
  have hinsert : (job.goto (.insertEffect result)).proceed t₁.stores t₁.locks 0 0 =
      some (t₁.stores, job.goto (.commitSuccess result true)) := by
    have hfree : ¬ (t.db.HasEffect job.key ∨ t₁.locks.inserting job.key = true) := by
      simp [hnone, hlock₁]
    exact if_neg hfree
  set t₂ := t₁.setJob i t₁.stores (job.goto (.commitSuccess result true))
  have hi₂ : t₂.jobs[i]? = some (job.goto (.commitSuccess result true)) :=
    Indexed.getElem?_set_of_eq hi₁
  obtain ⟨out, hcommit, hcommitted⟩ : ∃ out : Stores × Job,
      (job.goto (.commitSuccess result true)).proceed t₂.stores t₂.locks 0 0 = some out ∧
        out.2.committed = true := by
    have hfree : ¬ t₂.locks.updating job.envelope.taskId = true := by
      rw [show t₂.locks.updating job.envelope.taskId = false from hupd _]
      simp
    exact ⟨_, if_neg hfree, rfl⟩
  refine ⟨t₂.setJob i out.1 out.2, ?_, out.2, Indexed.getElem?_set_of_eq hi₂, hcommitted⟩
  exact ((hreach.tail trivial (step_of_proceed hi hselect)).tail trivial
    (step_of_proceed hi₁ hinsert)).tail trivial (step_of_proceed hi₂ hcommit)

/-! ### When fencing works -/

/-- A job that finds a row whenever it looks for one never commits. -/
theorem not_committedAt_of_looksUpCommitted {job : Job} (hjob : s.jobs[i]? = some job)
    (hunarmed : job.Unarmed) (h : Transition.ReachesWhen step (LooksUpCommitted i) s s') :
    ¬ s'.CommittedAt i := by
  have hkept : ∃ job' : Job, s'.jobs[i]? = some job' ∧ job'.key = job.key ∧ job'.Unarmed := by
    apply Transition.ReachesWhen.invariant (I := fun s : Sys =>
      ∃ job' : Job, s.jobs[i]? = some job' ∧ job'.key = job.key ∧ job'.Unarmed) ?_ h
      ⟨job, hjob, rfl, hunarmed⟩
    intro s a s' hinv hcond hstep
    refine unarmed_step hstep ?_ hinv
    rintro job' result hjob' ⟨reply, ha⟩ hpc
    exact hcond reply job' result ha hjob' hpc
  rintro ⟨job', hjob', hcommitted⟩
  obtain ⟨job'', hjob'', -, hunarmed'⟩ := hkept
  obtain rfl := Option.mem_unique hjob' hjob''
  simp [hunarmed'.committed] at hcommitted

/-- A job whose key already has a row never commits. -/
theorem not_committedAt_of_hasEffect {job : Job} (hjob : s.jobs[i]? = some job)
    (hunarmed : job.Unarmed) (heffect : s.db.HasEffect job.key)
    (h : Transition.Reaches step s s') : ¬ s'.CommittedAt i := by
  have hkept : s'.db.HasEffect job.key ∧
      ∃ job' : Job, s'.jobs[i]? = some job' ∧ job'.key = job.key ∧ job'.Unarmed := by
    apply Transition.Reaches.invariant (I := fun s : Sys => s.db.HasEffect job.key ∧
      ∃ job' : Job, s.jobs[i]? = some job' ∧ job'.key = job.key ∧ job'.Unarmed) ?_ h
      ⟨heffect, job, hjob, rfl, hunarmed⟩
    rintro s a s' ⟨hrow, hinv⟩ hstep
    refine ⟨hrow.mono (effects_grow_of_step hstep), unarmed_step hstep ?_ hinv⟩
    intro job' result hjob' _ _
    obtain ⟨job'', hjob'', hkey, -⟩ := hinv
    obtain rfl := Option.mem_unique hjob' hjob''
    exact hkey.symm ▸ hrow
  rintro ⟨job', hjob', hcommitted⟩
  obtain ⟨-, job'', hjob'', -, hunarmed'⟩ := hkept
  obtain rfl := Option.mem_unique hjob' hjob''
  simp [hunarmed'.committed] at hcommitted

/-- **Zombie fencing, as far as it goes.** Take any reachable state and any job in it that
has been superseded before its commit transaction started.

* In every run from there in which the job's lookup is made only when a row under its
  key is committed, the job never commits an effect.
* When the job is just about to make the lookup, the condition is exact: it will not
  commit in any run if a row under its key is there, and it can commit otherwise. -/
theorem zombie_fenced_iff (h : s.Reachable) :
    ∀ i job, s.jobs[i]? = some job → s.Superseded job → job.BeforeCommit →
      (∀ s', Transition.ReachesWhen step (LooksUpCommitted i) s s' → ¬ s'.CommittedAt i) ∧
      ∀ result, job.pc = .execute (.selectEffect result) →
        ((∀ s', Transition.Reaches step s s' → ¬ s'.CommittedAt i) ↔
          s.db.HasEffect job.key) := by
  intro i job hjob _ hbefore
  have hcommitted : job.committed = false :=
    h.committed_of_early job (List.mem_of_getElem? hjob) hbefore.early
  -- before the lookup the job is neither inserting nor committing
  have hunarmed : job.Unarmed := by
    refine ⟨hcommitted, ?_, ?_⟩ <;>
      · intro result
        rcases hbefore with hpc | hpc | hpc | ⟨r, hpc⟩ <;> simp [hpc]
  refine ⟨fun s' => not_committedAt_of_looksUpCommitted hjob hunarmed, fun result hpc => ?_⟩
  constructor
  · intro hnever
    -- if there is no row, everybody else may stop and let the job commit
    by_contra hnone
    obtain ⟨s', hreach, hcommit⟩ := exists_commit hjob hpc hnone
    exact hnever s' hreach hcommit
  · exact fun heffect s' => not_committedAt_of_hasEffect hjob hunarmed heffect

instance (s : Sys) (job : Job) : Decidable (s.Superseded job) :=
  inferInstanceAs (Decidable (_ ∧ _))

/-- The theorem where fencing works: the second worker has committed, and the first one,
about to look for the effect, will never commit. -/
theorem zombie_fenced_iff_rejected : ∃ (s : Sys) (job : Job), s.Reachable ∧
    s.jobs[0]? = some job ∧ s.Superseded job ∧
    ∀ s', Transition.Reaches step s s' → ¬ s'.CommittedAt 0 := by
  obtain ⟨s, hrun, hcheck⟩ := Transition.exists_run_of_check step init (overlap ++ proceeds 1 3)
    (fun s => s.jobs[0]?.any fun job => job.pc = .execute (.selectEffect none) ∧
      s.Superseded job ∧ s.db.HasEffect job.key) (by decide)
  have hreach : s.Reachable := .of_run hrun
  obtain ⟨job, hjob, hjobCheck⟩ := (Option.any_eq_true _ _).mp hcheck
  obtain ⟨hpc, hsup, heffect⟩ := of_decide_eq_true hjobCheck
  have hiff := (zombie_fenced_iff hreach 0 job hjob hsup (by simp [Job.BeforeCommit, hpc])).2
  exact ⟨s, job, hreach, hjob, hsup, (hiff none hpc).mpr heffect⟩

/-- A zombie that commits. Worker `b` has acquired the task with a higher fence before
worker `a` starts its commit transaction, but has not committed; `a` finds no row, inserts
its own and commits. -/
theorem zombie_commits : ∃ (s s' : Sys) (job : Job), s.Reachable ∧ s.jobs[0]? = some job ∧
    s.Superseded job ∧ job.BeforeCommit ∧ Transition.Reaches step s s' ∧ s'.CommittedAt 0 := by
  obtain ⟨s, hrun, hcheck⟩ := Transition.exists_run_of_check step init overlap
    (fun s => (s.jobs[0]?.any fun job => job.pc = .execute (.selectEffect none) ∧
      s.Superseded job) ∧
      (Transition.run step s (proceeds 0 3)).any fun s' => s'.jobs[0]?.any Job.committed)
    (by decide)
  obtain ⟨hzombie, hcommits⟩ := hcheck
  obtain ⟨job, hjob, hjobCheck⟩ := (Option.any_eq_true _ _).mp hzombie
  obtain ⟨hpc, hsup⟩ := of_decide_eq_true hjobCheck
  obtain ⟨s', hrun', hcommitted⟩ := (Option.any_eq_true _ _).mp hcommits
  obtain ⟨job', hjob', hjobCommitted⟩ := (Option.any_eq_true _ _).mp hcommitted
  exact ⟨s, s', job, .of_run hrun, hjob, hsup, by simp [Job.BeforeCommit, hpc], .of_run hrun',
    job', hjob', hjobCommitted⟩

end Sys

end Dtq
