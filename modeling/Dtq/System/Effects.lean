import Dtq.System.Moves

/-!
# Exactly-once effects

`commit_effect` looks for a row and then inserts one, in two statements: two workers can
both find nothing. What makes the effect unique is the primary key together with the
transaction: an `INSERT` is refused while the key is committed or held by another open
transaction, and a refused or rejected transaction is rolled back.

The invariant says who has a claim to a key. A job claims its key from its `INSERT` on,
and for good once the transaction has committed; no two jobs ever claim the same key.

## Main results

* `Sys.Reachable.effectInv` — the invariant, in every reachable state
* `Sys.exactly_once_effect` — one row per key, never changed, written by one commit
-/

set_option autoImplicit false

namespace Dtq

/-- `execute` is on its way to return success, or has just returned it. -/
def Pc.Succeeds : Pc → Prop
  | .execute (.commitSuccess _ false) | .execute (.releaseLease true _) | .returned true _ => True
  | _ => False

theorem Pc.Exceptional.not_succeeds {pc : Pc} (h : pc.Exceptional) : ¬ pc.Succeeds := by
  cases h <;> exact id

namespace Job

variable (job : Job)

/-- The job's transaction has inserted a row under this key, and has committed or may
still commit. -/
def Claims (key : String) : Prop :=
  job.inserting key = true ∨ job.committed = true ∧ job.key = key

variable {job} {job' : Job} {stores stores' : Stores} {locks : Locks} {key : String}

theorem key_of_inserting (h : job.inserting key = true) : job.key = key := by
  unfold inserting at h
  split at h
  · simpa using h
  · simp at h

theorem Claims.key_eq (h : job.Claims key) : job.key = key := by
  rcases h with h | ⟨-, h⟩
  · exact key_of_inserting h
  · exact h

theorem exists_pc_of_inserting (h : job.inserting key = true) :
    ∃ result, job.pc = .execute (.commitSuccess result true) := by
  unfold inserting at h
  split at h
  · exact ⟨_, ‹_›⟩
  · simp at h

/-- A move makes a new claim only by an `INSERT` that found the key free. -/
theorem Moves.claims_cases (h : job.Moves stores locks stores' job') (hclaim : job'.Claims key) :
    job.Claims key ∨
      job.key = key ∧ stores' = stores ∧ ¬ stores.db.HasEffect key ∧
        locks.inserting key = false := by
  rcases hclaim with hins | ⟨hcommitted, hkey⟩
  · -- the transaction is open after the move: the move was the `INSERT`, since nobody
    -- else comes to this point
    obtain ⟨result, hpc'⟩ := exists_pc_of_inserting hins
    obtain ⟨-, hstores, hnone, hlock⟩ := h.commitSuccess_true_cases hpc'
    have hkey : job.key = key := h.key_eq ▸ key_of_inserting hins
    rw [hkey] at hnone hlock
    exact Or.inr ⟨hkey, hstores, hnone, hlock⟩
  · rw [h.key_eq] at hkey
    obtain ⟨-, hsame⟩ | ⟨result, hpc, -⟩ := h.effects_cases
    · exact Or.inl (Or.inr ⟨hsame ▸ hcommitted, hkey⟩)
    · -- the move was the `COMMIT`: the claim was there before
      refine Or.inl (Or.inl ?_)
      simp [inserting, hpc, hkey]

/-- The code heads for success only with an effect to show for it. -/
theorem Moves.succeeds_cases (h : job.Moves stores locks stores' job')
    (hsucc : job'.pc.Succeeds) : job.pc.Succeeds ∨ stores'.db.HasEffect job.key := by
  cases h with
  | proceeds h =>
    cases h with
    | foundPresent result row hpc hrow =>
      obtain ⟨hmem, hkey⟩ := Db.hasEffect_of_findEffect hrow
      exact Or.inr ⟨row, hmem, hkey⟩
    | committedEffect result now hpc => exact Or.inr ⟨job.effectRow result, by simp, rfl⟩
    | committedNothing result now hpc => exact Or.inl (by simp [hpc, Pc.Succeeds])
    | released success errorRepr hpc =>
      cases success with
      | true => exact Or.inl (by simp [hpc, Pc.Succeeds])
      | false => simp [returns, Pc.Succeeds] at hsucc
    | _ => simp [returns, goto, adopted, Pc.Succeeds] at hsucc
  | raisedAfter h hexc | failed hactive hexc => exact absurd hsucc hexc.not_succeeds
  | skippedPrior hpc => simp [adopted, Pc.Succeeds] at hsucc
  | handlerEnded hpc hnext =>
    obtain ⟨r, rfl⟩ | ⟨type, text, rfl⟩ := hnext <;> simp [goto, Pc.Succeeds] at hsucc

/-- `execute` returns success only from where it was heading for it. -/
theorem Moves.returned_cases (h : job.Moves stores locks stores' job') {text : Option String}
    (hret : job'.returned = some (true, text)) :
    job.returned = some (true, text) ∨ job.pc.Succeeds := by
  cases h with
  | proceeds h =>
    cases h with
    | released success errorRepr hpc =>
      simp only [returns, Option.some.injEq, Prod.mk.injEq] at hret
      obtain ⟨rfl, -⟩ := hret
      exact Or.inr (by simp [hpc, Pc.Succeeds])
    | refused | abandoned => simp [returns] at hret
    | _ => exact Or.inl hret
  | raisedAfter | failed | skippedPrior | handlerEnded => exact Or.inl hret

end Job

namespace Sys

/-- Two jobs that never claim the same key. -/
def Disjoint (a b : Job) : Prop := ∀ key, ¬ (a.Claims key ∧ b.Claims key)

/-- What the jobs know about the table of effects. -/
structure EffectInv (s : Sys) : Prop where
  keys : (s.db.effects.map EffectRow.dedupKey).Nodup
  /-- an open transaction's row is not committed -/
  free : ∀ job ∈ s.jobs, ∀ key, job.inserting key = true → ¬ s.db.HasEffect key
  /-- no two jobs claim the same key -/
  apart : Indexed.Apart Disjoint s.jobs
  /-- every row was committed by some job -/
  backed : ∀ row ∈ s.db.effects, ∃ job ∈ s.jobs, job.committed = true ∧ job.key = row.dedupKey
  committed : ∀ job ∈ s.jobs, job.committed = true → s.db.HasEffect job.key
  succeeds : ∀ job ∈ s.jobs, job.pc.Succeeds → s.db.HasEffect job.key
  returned : ∀ job ∈ s.jobs, ∀ text, job.returned = some (true, text) → s.db.HasEffect job.key

theorem Disjoint.symm {a b : Job} (h : Disjoint a b) : Disjoint b a :=
  fun key hclaims => h key hclaims.symm

theorem effectInv_init : EffectInv init where
  keys := by simp [init, Db.empty]
  free := by simp [init]
  apart := Indexed.Apart.nil
  backed := by simp [init, Db.empty]
  committed := by simp [init]
  succeeds := by simp [init]
  returned := by simp [init]

variable {s s' : Sys} {a : Action}

/-- The key of an open insertion is locked. -/
theorem locks_inserting {job : Job} {key : String} (hjob : job ∈ s.jobs)
    (h : job.inserting key = true) : s.locks.inserting key = true :=
  List.any_eq_true.mpr ⟨job, hjob, h⟩

section JobMove

variable {i : ℕ} {job job' : Job} {stores' : Stores}

/-- A new row has a key that was free while the transaction was open. -/
theorem EffectInv.keys_job (h : s.EffectInv) (hmem : job ∈ s.jobs)
    (hmove : job.Moves s.stores s.locks stores' job') :
    (stores'.db.effects.map EffectRow.dedupKey).Nodup := by
  obtain ⟨heq, -⟩ | ⟨result, hpc, heq, -⟩ := hmove.effects_cases
  · rw [heq]
    exact h.keys
  · have hins : job.inserting job.key = true := by simp [Job.inserting, hpc]
    rw [heq, List.map_append, List.nodup_append]
    refine ⟨h.keys, by simp, fun k hk k' hk' heq => ?_⟩
    obtain ⟨row, hrow, rfl⟩ := List.mem_map.mp hk
    obtain rfl : k' = job.key := by simpa [Job.effectRow] using hk'
    exact h.free job hmem _ hins ⟨row, hrow, heq⟩

/-- The keys of open transactions stay free. -/
theorem EffectInv.free_job (h : s.EffectInv) (hjob : s.jobs[i]? = some job)
    (hmove : job.Moves s.stores s.locks stores' job') :
    ∀ other ∈ s.jobs.set i job', ∀ key, other.inserting key = true →
      ¬ stores'.db.HasEffect key := by
  apply Indexed.forall_mem_set_of_ne
  · rintro j other hj hother key hins ⟨row, hrow, hrowKey⟩
    have hfree := h.free other (List.mem_of_getElem? hother) key hins
    rcases hmove.mem_effects_cases hrow with hold | ⟨result, hpc, -, rfl⟩
    · exact hfree ⟨row, hold, hrowKey⟩
    · -- the committed key would be claimed by both jobs
      refine h.apart hjob hother hj.symm key ⟨Or.inl ?_, Or.inl hins⟩
      simpa [Job.inserting, hpc, Job.effectRow] using hrowKey
  · intro key hins
    obtain ⟨result, hpc'⟩ := Job.exists_pc_of_inserting hins
    obtain ⟨-, hstores, hnone, -⟩ := hmove.commitSuccess_true_cases hpc'
    rw [← Job.key_of_inserting hins, hmove.key_eq, hstores]
    exact hnone

/-- An `INSERT` is refused when another job has a claim to the key. -/
theorem EffectInv.apart_job (h : s.EffectInv) (hjob : s.jobs[i]? = some job)
    (hmove : job.Moves s.stores s.locks stores' job') :
    Indexed.Apart Disjoint (s.jobs.set i job') := by
  apply h.apart.set fun _ _ => Disjoint.symm
  rintro j other hj hother key ⟨hclaim', hclaim⟩
  rcases hmove.claims_cases hclaim' with hold | ⟨hjobKey, -, hnone, hlock⟩
  · exact h.apart hjob hother hj.symm key ⟨hold, hclaim⟩
  · -- the `INSERT` saw neither a committed nor an open row of the other job
    rcases hclaim with hins | ⟨hcommitted, hotherKey⟩
    · have hlocked := locks_inserting (List.mem_of_getElem? hother) hins
      rw [hlock] at hlocked
      exact absurd hlocked (by simp)
    · apply hnone
      rw [← hotherKey]
      exact h.committed other (List.mem_of_getElem? hother) hcommitted

/-- Every row has the job that committed it. -/
theorem EffectInv.backed_job (h : s.EffectInv) (hjob : s.jobs[i]? = some job)
    (hmove : job.Moves s.stores s.locks stores' job') :
    ∀ row ∈ stores'.db.effects, ∃ other ∈ s.jobs.set i job',
      other.committed = true ∧ other.key = row.dedupKey := by
  intro row hrow
  rcases hmove.mem_effects_cases hrow with hold | ⟨result, -, hcommitted, rfl⟩
  · apply Indexed.exists_mem_set hjob _ (h.backed row hold)
    rintro ⟨hbefore, hkey⟩
    refine ⟨?_, hmove.key_eq.trans hkey⟩
    obtain ⟨-, hsame⟩ | ⟨-, -, -, hcommitted, -⟩ := hmove.effects_cases
    · exact hsame.trans hbefore
    · exact hcommitted
  · exact ⟨job', List.mem_of_getElem? (Indexed.getElem?_set_of_eq hjob), hcommitted, hmove.key_eq⟩

end JobMove

/-- A move of one job keeps the invariant. -/
theorem EffectInv.job {i : ℕ} {job job' : Job} {stores' : Stores} (h : s.EffectInv)
    (hjob : s.jobs[i]? = some job) (hmove : job.Moves s.stores s.locks stores' job') :
    (s.setJob i stores' job').EffectInv := by
  have hmem : job ∈ s.jobs := List.mem_of_getElem? hjob
  have hkeep : ∀ key, s.db.HasEffect key → stores'.db.HasEffect key := fun _ hk =>
    hk.mono hmove.effects_grow
  have hkey : job'.key = job.key := hmove.key_eq
  refine ⟨h.keys_job hmem hmove, h.free_job hjob hmove, h.apart_job hjob hmove,
    h.backed_job hjob hmove, ?_, ?_, ?_⟩
  · apply Indexed.forall_mem_set
    · exact fun other hother hc => hkeep _ (h.committed other hother hc)
    · intro hc
      rw [hkey]
      obtain ⟨-, hsame⟩ | ⟨result, -, heq, -⟩ := hmove.effects_cases
      · exact hkeep _ (h.committed job hmem (hsame ▸ hc))
      · refine ⟨job.effectRow result, ?_, rfl⟩
        rw [setJob_db, heq]
        simp
  · apply Indexed.forall_mem_set
    · exact fun other hother hs => hkeep _ (h.succeeds other hother hs)
    · intro hs
      rw [hkey]
      rcases hmove.succeeds_cases hs with hold | heffect
      · exact hkeep _ (h.succeeds job hmem hold)
      · exact heffect
  · apply Indexed.forall_mem_set
    · exact fun other hother text hr => hkeep _ (h.returned other hother text hr)
    · intro text hr
      rw [hkey]
      rcases hmove.returned_cases hr with hold | hs
      · exact hkeep _ (h.returned job hmem text hold)
      · exact hkeep _ (h.succeeds job hmem hs)

/-- A new job knows nothing yet. -/
theorem EffectInv.spawn {job : Job} (h : s.EffectInv) (hjob : job.Starting)
    (hjobs : s'.jobs = s.jobs ++ [job]) (hdb : s'.db = s.db) : s'.EffectInv := by
  have hclaims : ∀ key, ¬ job.Claims key := by
    rintro key (hins | ⟨hc, -⟩)
    · simp [hjob.inserting] at hins
    · simp [hjob.committed] at hc
  refine ⟨hdb ▸ h.keys, ?_, ?_, ?_, ?_, ?_, ?_⟩ <;> rw [hjobs] <;> try rw [hdb]
  · apply Indexed.forall_mem_append_singleton h.free
    intro key hins
    simp [hjob.inserting] at hins
  · apply h.apart.append_singleton fun _ _ => Disjoint.symm
    exact fun other _ key hboth => hclaims key hboth.1
  · intro row hrow
    obtain ⟨other, hother, hbacked⟩ := h.backed row hrow
    exact ⟨other, List.mem_append_left _ hother, hbacked⟩
  · apply Indexed.forall_mem_append_singleton h.committed
    simp [hjob.committed]
  · apply Indexed.forall_mem_append_singleton h.succeeds
    rcases hjob.pc with hpc | hpc <;> simp [hpc, Pc.Succeeds]
  · apply Indexed.forall_mem_append_singleton h.returned
    simp [hjob.returned]

theorem EffectInv.step (h : s.EffectInv) (hstep : s.step a = some s') : s'.EffectInv := by
  rcases (moves_of_step hstep).worker_cases with
    ⟨i, job, job', stores', -, hjob, hmove, rfl⟩ | ⟨job, hnew, hjobs, hdb, -⟩ |
      ⟨hjobs, heffects, -, -⟩
  · exact h.job hjob hmove
  · exact h.spawn hnew hjobs hdb
  · refine ⟨?_, ?_, ?_, ?_, ?_, ?_, ?_⟩ <;>
      simp only [hjobs, heffects, Db.hasEffect_congr heffects]
    exacts [h.keys, h.free, h.apart, h.backed, h.committed, h.succeeds, h.returned]

/-- The invariant holds in every reachable state. -/
theorem Reachable.effectInv (h : s.Reachable) : s.EffectInv :=
  Transition.Reaches.invariant (fun _ _ _ hinv hstep => hinv.step hstep) h effectInv_init

/-! ### One effect for each key -/

/-- A key has a row exactly when exactly one job has committed one under it. -/
theorem EffectInv.hasEffect_iff (h : s.EffectInv) (key : String) :
    s.db.HasEffect key ↔
      ∃! i : ℕ, ∃ job : Job, s.jobs[i]? = some job ∧ job.committed = true ∧ job.key = key := by
  constructor
  · rintro ⟨row, hrow, rfl⟩
    obtain ⟨job, hjob, hcommitted, hkey⟩ := h.backed row hrow
    obtain ⟨i, hi⟩ := List.mem_iff_getElem?.mp hjob
    -- existence is `backed`, uniqueness is `apart`
    refine ⟨i, ⟨job, hi, hcommitted, hkey⟩, ?_⟩
    rintro j ⟨other, hj, hother, hotherKey⟩
    -- two committed jobs at different positions would both claim the key
    by_contra hne
    exact h.apart hj hi hne _ ⟨Or.inr ⟨hother, hotherKey⟩, Or.inr ⟨hcommitted, hkey⟩⟩
  · rintro ⟨i, ⟨job, hi, hcommitted, rfl⟩, -⟩
    exact h.committed job (List.mem_of_getElem? hi) hcommitted

/-- The steps of a job that is about to look for its effect, and those of a job that is
rolling back, leave the tables alone. -/
theorem db_eq_of_read_or_rollback {i : ℕ} {job : Job} {reply : Reply}
    (hjob : s.jobs[i]? = some job)
    (hpc : (∃ result, job.pc = .execute (.selectEffect result)) ∨
      ∃ text, job.pc = .execute (.rollback text))
    (hstep : s.step (.jobStep i reply) = some s') : s'.db = s.db := by
  cases moves_of_step hstep with
  | @job _ k job₁ job' stores' ha hjob' hmove =>
    obtain rfl : i = k := by
      rcases ha with ⟨r, ha, -⟩ | ⟨⟨o, ha⟩, -⟩ <;> simp at ha
      exact ha.1
    obtain rfl : job = job₁ := Option.mem_unique hjob hjob'
    -- no call that returns from either place writes a table
    obtain rfl | ⟨job'', hproceeds⟩ := hmove.stores_cases
    · rfl
    · rcases hpc with ⟨result, hpc⟩ | ⟨text, hpc⟩ <;> cases hproceeds <;> simp_all
  | leases ha => simp at ha

/-- **Exactly-once effect.** In every reachable state of any number of workers:

* the table of effects has at most one row for each key;
* whatever happens later, its rows stay as they are;
* a key has a row exactly when exactly one job has committed a transaction in which
  `commit_effect` returned true for it;
* every `execute` that has returned success left a row under its own key;
* a `commit_effect` that finds a row with a higher fence raises `FenceRejectedError`, and
  neither that statement nor the rollback, however it is answered, changes a table. -/
theorem exactly_once_effect (h : s.Reachable) :
    (s.db.effects.map EffectRow.dedupKey).Nodup ∧
    (∀ s', Transition.Reaches step s s' → s.db.effects <+: s'.db.effects) ∧
    (∀ key, s.db.HasEffect key ↔
      ∃! i : ℕ, ∃ job : Job, s.jobs[i]? = some job ∧ job.committed = true ∧ job.key = key) ∧
    (∀ job ∈ s.jobs, ∀ text, job.returned = some (true, text) →
      ∃ row ∈ s.db.effects, row.dedupKey =
        TaskEnvelope.keyOr job.envelope.dedupKey job.envelope.taskId) ∧
    (∀ i job result row, s.jobs[i]? = some job →
      job.pc = .execute (.selectEffect result) → s.db.findEffect job.key = some row →
      job.fence < row.fence →
        (∀ now draw, s.step (.jobStep i (.ok now draw)) =
          some (s.setJob i s.stores (job.goto
            (.rollback (Db.fenceRejectedText job.key row.fence job.fence))))) ∧
        ∀ reply s', s.step (.jobStep i reply) = some s' → s'.db = s.db) ∧
    (∀ i job text, s.jobs[i]? = some job → job.pc = .execute (.rollback text) →
      ∀ reply s', s.step (.jobStep i reply) = some s' → s'.db = s.db) := by
  have hinv := h.effectInv
  refine ⟨hinv.keys, fun s' => effects_grow_of_reaches, hinv.hasEffect_iff, hinv.returned,
    ?_, ?_⟩
  · intro i job result row hjob hpc hrow hlt
    refine ⟨fun now draw => ?_, fun reply s' =>
      db_eq_of_read_or_rollback hjob (Or.inl ⟨result, hpc⟩)⟩
    have hcheck : s.db.checkEffect job.key job.fence =
        .rejected (Db.fenceRejectedText job.key row.fence job.fence) := by
      simp only [Db.checkEffect, hrow]
      rw [if_pos hlt]
    simp [Sys.step, hjob, stepJob, Job.proceed, hpc, Job.executeOk, hcheck]
  · intro i job text hjob hpc reply s'
    exact db_eq_of_read_or_rollback hjob (Or.inr ⟨text, hpc⟩)

/-- A task with dedup key `k` is accepted and delivered to worker `a`, whose lease runs
out while the handler runs; worker `b` adopts the message and starts it again. Both
handlers return, so both jobs are about to look for the effect. -/
def overlap : List Action :=
  accept 0 { queue := "q", taskName := "t", payload := .null, dedupKey := some "k" } ⟨1⟩ ++
    [.deliver "a" 100 "q"] ++ proceeds 0 3 ++ [.expire (Uuid.str ⟨1⟩), .adopt "b" 100 "q" 0] ++
    proceeds 1 4 ++ [.handler 0 (.returned none), .handler 1 (.returned none)]

/-- The theorem at a race: both jobs find no row, the first one inserts and commits, the
`INSERT` of the second one fails. -/
theorem exactly_once_effect_race : ∃ s : Sys, s.Reachable ∧ s.db.effects.length = 1 ∧
    (s.db.effects.map EffectRow.dedupKey).Nodup := by
  obtain ⟨s, hrun, hcheck⟩ := Transition.exists_run_of_check step init
    (overlap ++ [.jobStep 0 (.ok 0 0), .jobStep 1 (.ok 0 0), .jobStep 0 (.ok 0 0),
      .jobStep 0 (.ok 0 0), .jobStep 1 (.raise false 0 0 "duplicate key")])
    (fun s => s.db.effects.length = 1) (by decide)
  have hreach : s.Reachable := .of_run hrun
  exact ⟨s, hreach, hcheck, (exactly_once_effect hreach).1⟩

end Sys

end Dtq
