import Dtq.System.Reports

/-!
# What `execute` leaves behind

Once an attempt is on record, `execute` should end with the attempt closed, the lease given
back and a result returned, and with an effect when the handler has succeeded. Three things
come in between: a renewal that raises while the handler runs, whose exception is raised again
where the stopped heartbeat is awaited; an effect with a higher fence, whose
`FenceRejectedError` is answered with a rollback and nothing else; and a fence that Lua writes
in another form than Python.

## Main results

* `Sys.later_of_step` — records, outcomes and effects are never lost
* `Sys.execute_closes` — what holds when `execute` ends, and what goes wrong otherwise
-/

set_option autoImplicit false

namespace Dtq

deriving instance DecidableEq for HandlerOutcome

namespace Db

variable {db db' db'' : Db} {taskId : Uuid} {attemptNo : ℕ}

/-- The attempt is on record. -/
def Recorded (db : Db) (taskId : Uuid) (attemptNo : ℕ) : Prop :=
  ∃ a ∈ db.attempts, a.taskId = taskId ∧ a.attemptNo = attemptNo

/-- The attempt is on record with an outcome. -/
def Closed (db : Db) (taskId : Uuid) (attemptNo : ℕ) : Prop :=
  db.Recorded taskId attemptNo ∧
    ∀ a ∈ db.attempts, a.taskId = taskId ∧ a.attemptNo = attemptNo → a.outcome ≠ none

instance : Decidable (db.Recorded taskId attemptNo) :=
  inferInstanceAs (Decidable (∃ a ∈ db.attempts, _))

instance : Decidable (db.Closed taskId attemptNo) :=
  inferInstanceAs (Decidable (_ ∧ ∀ a ∈ db.attempts, _))

/-- What is recorded, closed or committed in the first tables is so in the second. -/
structure Later (db db' : Db) : Prop where
  recorded : ∀ taskId attemptNo, db.Recorded taskId attemptNo → db'.Recorded taskId attemptNo
  closed : ∀ taskId attemptNo, db.Closed taskId attemptNo → db'.Closed taskId attemptNo
  effects : db.effects <+: db'.effects

theorem Later.of_eq (hattempts : db'.attempts = db.attempts) (heffects : db'.effects = db.effects) :
    db.Later db' := by
  refine ⟨fun taskId attemptNo h => ?_, fun taskId attemptNo h => ?_, ?_⟩
  · rwa [Recorded, hattempts]
  · rwa [Closed, Recorded, hattempts]
  · rw [heffects]

theorem Later.trans (h : db.Later db') (h' : db'.Later db'') : db.Later db'' :=
  ⟨fun taskId attemptNo hrec => h'.recorded _ _ (h.recorded taskId attemptNo hrec),
    fun taskId attemptNo hclosed => h'.closed _ _ (h.closed taskId attemptNo hclosed),
    h.effects.trans h'.effects⟩

section CloseAttempt

variable {no : ℕ} {id : Uuid} {outcome : AttemptOutcome} {et er : Option String} {now : ℚ}

/-- Every row after the update comes from a row of the same attempt, whose outcome it has kept
unless it was given a new one. -/
theorem mem_closeAttempt {a : AttemptRow}
    (ha : a ∈ (db.closeAttempt id no outcome et er now).attempts) :
    ∃ old ∈ db.attempts, old.taskId = a.taskId ∧ old.attemptNo = a.attemptNo ∧
      (a.outcome = old.outcome ∨ a.outcome = some outcome) ∧
      (a.taskId = id ∧ a.attemptNo = no → a.outcome = some outcome) := by
  obtain ⟨old, hold, rfl⟩ := List.mem_map.mp ha
  refine ⟨old, hold, ?_⟩
  split
  case isTrue h => exact ⟨rfl, rfl, Or.inr rfl, fun _ => rfl⟩
  case isFalse h => exact ⟨rfl, rfl, Or.inl rfl, fun hsame => absurd hsame h⟩

theorem Recorded.closeAttempt (h : db.Recorded taskId attemptNo) :
    (db.closeAttempt id no outcome et er now).Recorded taskId attemptNo := by
  obtain ⟨a, ha, hid⟩ := h
  refine ⟨_, List.mem_map_of_mem ha, ?_⟩
  split <;> exact hid

theorem later_closeAttempt : db.Later (db.closeAttempt id no outcome et er now) := by
  refine ⟨fun _ _ h => h.closeAttempt, fun taskId attemptNo h => ?_, List.prefix_refl _⟩
  refine ⟨h.1.closeAttempt, fun a ha hid => ?_⟩
  obtain ⟨old, hold, htask, hno, hkept | hnew, -⟩ := mem_closeAttempt ha
  · rw [hkept]
    exact h.2 old hold ⟨htask.trans hid.1, hno.trans hid.2⟩
  · simp [hnew]

/-- `close_attempt` closes a recorded attempt. -/
theorem Recorded.closed (h : db.Recorded taskId attemptNo) :
    (db.closeAttempt taskId attemptNo outcome et er now).Closed taskId attemptNo := by
  refine ⟨h.closeAttempt, fun a ha hid => ?_⟩
  obtain ⟨old, -, -, -, -, hnew⟩ := mem_closeAttempt ha
  simp [hnew hid]

end CloseAttempt

/-- A new attempt is another one than those on record. -/
theorem later_createAttempt {row : AttemptRow} (hnew : ∀ other ∈ db.attempts,
      ¬ (other.taskId = row.taskId ∧ other.attemptNo = row.attemptNo)) :
    db.Later { db with attempts := db.attempts ++ [row] } := by
  have hrecorded : ∀ taskId attemptNo, db.Recorded taskId attemptNo →
      Recorded { db with attempts := db.attempts ++ [row] } taskId attemptNo := by
    rintro taskId attemptNo ⟨a, ha, hid⟩
    exact ⟨a, List.mem_append_left _ ha, hid⟩
  refine ⟨hrecorded, fun taskId attemptNo h => ⟨hrecorded _ _ h.1, fun a ha hid => ?_⟩,
    List.prefix_refl _⟩
  rcases List.mem_append.mp ha with ha | ha
  · exact h.2 a ha hid
  · -- the new row would have the number of one that is there
    obtain rfl := List.mem_singleton.mp ha
    obtain ⟨old, hold, hsame⟩ := h.1
    exact absurd ⟨hsame.1.trans hid.1.symm, hsame.2.trans hid.2.symm⟩ (hnew old hold)

end Db

namespace Job

variable {stores stores' : Stores} {locks : Locks} {job job' : Job}

theorem Moves.later (h : job.Moves stores locks stores' job') : stores.db.Later stores'.db := by
  obtain rfl | ⟨job'', h⟩ := h.stores_cases
  · exact .of_eq rfl rfl
  · cases h with
    | closedPrior | committedNothing | closedFailed => exact Db.later_closeAttempt
    | recorded hpc hlock htask hnew =>
      have hcreate : stores.db.Later
          { stores.db with attempts := stores.db.attempts ++ [job.attemptRow] } :=
        Db.later_createAttempt hnew
      exact hcreate.trans (.of_eq rfl rfl)
    | committedEffect result now hpc =>
      have hinsert : stores.db.Later (stores.db.insertEffect (job.effectRow result)) :=
        ⟨fun _ _ h => h, fun _ _ h => h, List.prefix_append _ _⟩
      have hupdate : (stores.db.insertEffect (job.effectRow result)).Later
          ((stores.db.insertEffect (job.effectRow result)).updateTaskState
            job.envelope.taskId .succeeded none) := .of_eq rfl rfl
      exact (hinsert.trans hupdate).trans Db.later_closeAttempt
    | _ => exact .of_eq rfl rfl

/-- What the job's acquisition has written as the owner of the lease. -/
def ownerText (job : Job) : String := job.workerId ++ ":" ++ NumberText.tostring job.fence

/-- The lease of the task is still the one that the job has acquired. -/
def Owns (job : Job) (store : LeaseStore) : Prop :=
  ∃ lease ∈ store.leases job.taskText, lease.owner = job.ownerText

/-- Nothing is in the way of the job's next call: no renewal raises while the handler runs, the
lookup of `commit_effect` finds no higher fence, unless somebody else has closed the attempt,
and the final release recognizes a lease that is still the job's own. -/
def CanClose (job : Job) (stores : Stores) : Prop :=
  match job.pc with
  -- the only call while the handler runs is a renewal, and it does not end by itself
  | .execute .handlerRunning => False
  | .execute (.selectEffect _) =>
    (∀ row ∈ stores.db.findEffect job.key, row.fence ≤ job.fence) ∨
      stores.db.Closed job.envelope.taskId job.envelope.attemptNo
  | .execute (.releaseLease _ _) =>
    job.Owns stores.redis.leaseStore → NumberText.tostring job.fence = toString job.fence
  | _ => True

instance (job : Job) (store : LeaseStore) : Decidable (job.Owns store) :=
  inferInstanceAs (Decidable (∃ lease ∈ store.leases job.taskText, _))

instance (job : Job) (stores : Stores) : Decidable (job.CanClose stores) :=
  match h : job.pc with
  | .execute .handlerRunning => isFalse (by simp [CanClose, h])
  | .execute (.selectEffect _) =>
    decidable_of_iff ((∀ row ∈ stores.db.findEffect job.key, row.fence ≤ job.fence) ∨
      stores.db.Closed job.envelope.taskId job.envelope.attemptNo) (by simp [CanClose, h])
  | .execute (.releaseLease _ _) =>
    decidable_of_iff (job.Owns stores.redis.leaseStore →
      NumberText.tostring job.fence = toString job.fence) (by simp [CanClose, h])
  | .closePrior | .returned _ _ | .markDead | .ack | .ended => isTrue (by simp [CanClose, h])
  | .execute .acquireLease | .execute .recordAttempt | .execute (.abandon _)
  | .execute .startHandler | .execute (.insertEffect _) | .execute (.commitSuccess _ _)
  | .execute (.closeFailed _ _) | .execute (.rollback _) => isTrue (by simp [CanClose, h])

/-- The job goes on with the attempt that `job₀` was about to record. -/
structure Continues (job₀ job : Job) : Prop where
  envelope : job.envelope = job₀.envelope
  workerId : job.workerId = job₀.workerId
  fence : job.fence = job₀.fence
  pc : job.pc ≠ .closePrior ∧ job.pc ≠ .execute .acquireLease

theorem Continues.proceeds {job₀ : Job} (h : job₀.Continues job)
    (hout : job.Proceeds stores locks stores' job') : job₀.Continues job' := by
  obtain ⟨henvelope, hworkerId, hfence, hprior, hacquire⟩ := h
  cases hout with
  | closedPrior now hpc => exact absurd hpc hprior
  | refused store hpc => exact absurd hpc hacquire
  | acquired store fence hpc => exact absurd hpc hacquire
  | _ => exact ⟨henvelope, hworkerId, hfence, by simp [goto, returns]⟩

/-- Only the reclaim loop enters `execute`, and only the acquisition sets the fence. -/
theorem Continues.moves {job₀ : Job} (h : job₀.Continues job)
    (hmove : job.Moves stores locks stores' job') : job₀.Continues job' := by
  cases hmove with
  | proceeds hout => exact h.proceeds hout
  | raisedAfter hout hexc =>
    have hlast := h.proceeds hout
    exact ⟨hlast.envelope, hlast.workerId, hlast.fence, by cases hexc <;> simp⟩
  | failed hactive hexc => exact ⟨h.envelope, h.workerId, h.fence, by cases hexc <;> simp⟩
  | skippedPrior hpc => exact absurd hpc h.pc.1
  | handlerEnded hpc hnext =>
    refine ⟨h.envelope, h.workerId, h.fence, ?_⟩
    obtain ⟨result, rfl⟩ | ⟨type, text, rfl⟩ := hnext <;> simp [goto]

/-- Once `execute` has ended it is not entered again. -/
theorem Proceeds.stays_out (h : job.Proceeds stores locks stores' job')
    (hprior : job.pc ≠ .closePrior) (hout : ∀ pc, job.pc ≠ .execute pc) (pc : ExecutePc) :
    job'.pc ≠ .execute pc := by
  cases h with
  | closedPrior now hpc => exact absurd hpc hprior
  | ackedSuccess | scheduledRetry | deadLettered | markedDead | acked => simp
  | _ => exact absurd ‹job.pc = .execute _› (hout _)

/-- The calls with which `execute` ends. -/
theorem Proceeds.leaves_cases {pc : ExecutePc} (h : job.Proceeds stores locks stores' job')
    (hin : job.pc = .execute pc) (hout : ∀ pc, job'.pc ≠ .execute pc) :
    pc = .acquireLease ∨ (∃ error, pc = .abandon error) ∨
      ∃ success text, pc = .releaseLease success text ∧ stores' = job.release stores ∧
        job' = job.returns success text := by
  cases h with
  | refused store hpc => exact Or.inl (by simpa [hin] using hpc)
  | abandoned error hpc => exact Or.inr (Or.inl ⟨error, by simpa [hin] using hpc⟩)
  | released success text hpc =>
    exact Or.inr (Or.inr ⟨success, text, by simpa [hin] using hpc, rfl, rfl⟩)
  | closedPrior now hpc => simp [hin] at hpc
  | ackedSuccess text hpc | deadLettered text hpc | markedDead hpc | acked hpc => simp [hin] at hpc
  | scheduledRetry text runAt hpc => simp [hin] at hpc
  | _ => exact absurd rfl (hout _)

/-- Where a job is between the record of its attempt and the end of `execute`, when no call of
it has gone wrong. -/
inductive Phase (outcome : HandlerOutcome) (db : Db) (job : Job) : Prop
  | running (hpc : job.pc = .execute .startHandler ∨ job.pc = .execute .handlerRunning)
  | committing (result : Option Json) (houtcome : outcome = .returned result)
      (hpc : job.pc = .execute (.selectEffect result) ∨ job.pc = .execute (.insertEffect result) ∨
        job.pc = .execute (.commitSuccess result true))
  | present (result : Option Json) (hpc : job.pc = .execute (.commitSuccess result false))
      (heffect : db.HasEffect job.key)
  | failing (errorType text : String) (houtcome : ∀ result, outcome ≠ .returned result)
      (hpc : job.pc = .execute (.closeFailed errorType text))
  /-- a newer effect was found after somebody else had closed the attempt -/
  | rejected (text : String) (hpc : job.pc = .execute (.rollback text))
      (hclosed : db.Closed job.envelope.taskId job.envelope.attemptNo)
      (heffect : db.HasEffect job.key)
  | releasing (success : Bool) (text : Option String)
      (hpc : job.pc = .execute (.releaseLease success text))
      (hclosed : db.Closed job.envelope.taskId job.envelope.attemptNo)
      (heffect : ∀ result, outcome = .returned result → db.HasEffect job.key)
  | outside (hpc : ∀ pc, job.pc ≠ .execute pc)

/-- What the others do to the tables does not set a job back. -/
theorem Phase.later {outcome : HandlerOutcome} {db db' : Db} (h : job.Phase outcome db)
    (hlater : db.Later db') : job.Phase outcome db' := by
  cases h with
  | running hpc => exact .running hpc
  | committing result houtcome hpc => exact .committing result houtcome hpc
  | present result hpc heffect => exact .present result hpc (heffect.mono hlater.effects)
  | failing errorType text houtcome hpc => exact .failing errorType text houtcome hpc
  | rejected text hpc hclosed heffect =>
    exact .rejected text hpc (hlater.closed _ _ hclosed) (heffect.mono hlater.effects)
  | releasing success text hpc hclosed heffect =>
    exact .releasing success text hpc (hlater.closed _ _ hclosed)
      fun result houtcome => (heffect result houtcome).mono hlater.effects
  | outside hpc => exact .outside hpc

/-- The lookup of `commit_effect` returns. -/
theorem Phase.selected {outcome : HandlerOutcome} {now draw : ℚ} {out : Stores × Job}
    {result : Option Json} (houtcome : outcome = .returned result)
    (hpc : job.pc = .execute (.selectEffect result)) (hcan : job.CanClose stores)
    (hout : job.proceed stores locks now draw = some out) : out.2.Phase outcome out.1.db := by
  simp only [Job.proceed, hpc, executeOk] at hout
  simp only [CanClose, hpc] at hcan
  cases hrow : stores.db.findEffect job.key with
  | none =>
    simp only [Db.checkEffect, hrow, Option.some.injEq] at hout
    subst hout
    exact .committing result houtcome (Or.inr (Or.inl rfl))
  | some row =>
    have heffect : stores.db.HasEffect job.key := ⟨row, Db.hasEffect_of_findEffect hrow⟩
    simp only [Db.checkEffect, hrow] at hout
    split_ifs at hout with hlt
    · -- the transaction is rolled back, which undoes nothing that others have closed
      obtain rfl := Option.some.inj hout
      have hclosed := hcan.resolve_left fun hle => absurd (hle row hrow) (not_le.mpr hlt)
      exact .rejected _ rfl hclosed heffect
    · obtain rfl := Option.some.inj hout
      exact .present result rfl heffect

/-- A call that returns, with nothing in its way, leads to the next phase. -/
theorem Phase.proceed {outcome : HandlerOutcome} {now draw : ℚ} {out : Stores × Job}
    (h : job.Phase outcome stores.db) (hprior : job.pc ≠ .closePrior)
    (hrecorded : stores.db.Recorded job.envelope.taskId job.envelope.attemptNo)
    (hcan : job.CanClose stores) (hout : job.proceed stores locks now draw = some out) :
    out.2.Phase outcome out.1.db := by
  cases h with
  | running hpc =>
    rcases hpc with hpc | hpc
    · simp only [Job.proceed, hpc, executeOk, Option.some.injEq] at hout
      subst hout
      exact .running (Or.inr rfl)
    · simp [Job.proceed, hpc, executeOk] at hout
  | committing result houtcome hpc =>
    rcases hpc with hpc | hpc | hpc
    · exact .selected houtcome hpc hcan hout
    · simp only [Job.proceed, hpc, executeOk] at hout
      split_ifs at hout with hbusy
      obtain rfl := Option.some.inj hout
      exact .committing result houtcome (Or.inr (Or.inr rfl))
    · simp only [Job.proceed, hpc, executeOk] at hout
      split_ifs at hout with hlock
      obtain rfl := Option.some.inj hout
      -- the row, the state and the outcome become visible together
      refine .releasing true none rfl ?_ fun _ _ => ⟨job.effectRow result, ?_, rfl⟩
      · exact Db.Recorded.closed hrecorded
      · exact List.mem_append_right _ (List.mem_singleton_self _)
  | present result hpc heffect =>
    simp only [Job.proceed, hpc, executeOk, Option.some.injEq] at hout
    subst hout
    exact .releasing true none rfl hrecorded.closed fun _ _ => heffect
  | failing errorType text houtcome hpc =>
    simp only [Job.proceed, hpc, executeOk, Option.some.injEq] at hout
    subst hout
    exact .releasing false (some text) rfl hrecorded.closed
      fun result hreturned => absurd hreturned (houtcome result)
  | rejected text hpc hclosed heffect =>
    simp only [Job.proceed, hpc, executeOk, Option.some.injEq] at hout
    subst hout
    exact .releasing false (some text) rfl hclosed fun _ _ => heffect
  | releasing success text hpc hclosed heffect =>
    simp only [Job.proceed, hpc, executeOk, Option.some.injEq] at hout
    subst hout
    exact .outside fun pc => by simp [returns]
  | outside hpc => exact .outside ((proceeds_of_proceed hout).stays_out hprior hpc)

/-- The end of the handler is not the end of `execute`. -/
theorem goto_of_handlerEnds {outcome : HandlerOutcome} (h : job.handlerEnds outcome = some job') :
    ∃ pc, job' = job.goto pc := by
  cases outcome <;>
    · simp only [handlerEnds] at h
      split_ifs at h
      exact ⟨_, (Option.some.inj h).symm⟩

/-- The handler ends: its result is to be committed, or its failure to be recorded. -/
theorem Phase.of_handlerEnds {outcome : HandlerOutcome} {db : Db}
    (h : job.handlerEnds outcome = some job') : job'.Phase outcome db := by
  cases outcome with
  | returned result =>
    simp only [handlerEnds] at h
    split_ifs at h
    obtain rfl := Option.some.inj h
    exact .committing result rfl (Or.inl rfl)
  | timedOut | fenceRejected | raised =>
    simp only [handlerEnds] at h
    split_ifs at h
    obtain rfl := Option.some.inj h
    exact .failing _ _ (by simp) rfl

/-- At the final release the attempt is closed, and the effect of a success is committed. -/
theorem Phase.at_release {outcome : HandlerOutcome} {db : Db} {success : Bool}
    {text : Option String} (h : job.Phase outcome db)
    (hat : job.pc = .execute (.releaseLease success text)) :
    db.Closed job.envelope.taskId job.envelope.attemptNo ∧
      ∀ result, outcome = .returned result → db.HasEffect job.key := by
  cases h with
  | releasing success' text' hpc hclosed heffect => exact ⟨hclosed, heffect⟩
  | running hpc => simp [hat] at hpc
  | committing result houtcome hpc => simp [hat] at hpc
  | present result hpc | failing type text' houtcome hpc | rejected text' hpc => simp [hat] at hpc
  | outside hpc => exact absurd hat (hpc _)

/-- At the lookup of `commit_effect` the handler has returned the result that is committed. -/
theorem Phase.at_select {outcome : HandlerOutcome} {db : Db} {result : Option Json}
    (h : job.Phase outcome db) (hat : job.pc = .execute (.selectEffect result)) :
    outcome = .returned result := by
  cases h with
  | committing result' houtcome hpc =>
    obtain rfl : result = result' := by simpa [hat] using hpc
    exact houtcome
  | running hpc => simp [hat] at hpc
  | present _ hpc | failing _ _ _ hpc | rejected _ hpc | releasing _ _ hpc => simp [hat] at hpc
  | outside hpc => exact absurd hat (hpc _)

theorem Phase.not_abandon {outcome : HandlerOutcome} {db : Db} {error : String}
    (h : job.Phase outcome db) : job.pc ≠ .execute (.abandon error) := by
  intro hat
  cases h with
  | running hpc => simp [hat] at hpc
  | committing result houtcome hpc => simp [hat] at hpc
  | present result hpc | failing type text houtcome hpc | rejected text hpc => simp [hat] at hpc
  | releasing success text hpc => simp [hat] at hpc
  | outside hpc => exact hpc _ hat

/-! ### The final release -/

/-- The lease that is found under the task's key: free, or with an owner's text. -/
theorem owns_iff {store : LeaseStore} {lease : Lease}
    (hheld : store.leases job.taskText = some lease) :
    job.Owns store ↔ lease.owner = job.ownerText := by
  simp [Owns, hheld]

/-- The script recognizes the job's own lease exactly when Lua and Python write the fence
alike. -/
theorem ownerText_eq_iff :
    job.ownerText = job.workerId ++ ":" ++ toString (job.fence : ℤ) ↔
      NumberText.tostring job.fence = toString job.fence :=
  String.append_right_inj _

/-- The release takes the lease away if it is still the job's own and recognized. -/
theorem not_owns_release (htext : job.Owns stores.redis.leaseStore →
      NumberText.tostring job.fence = toString job.fence) :
    ¬ job.Owns (job.release stores).redis.leaseStore := by
  have hstore : (job.release stores).redis.leaseStore =
      (stores.redis.leaseStore.releaseLease job.taskText job.workerId job.fence).1 := rfl
  rw [hstore]
  cases hheld : stores.redis.leaseStore.leases job.taskText with
  | none => simp [LeaseStore.releaseLease, Owns, hheld]
  | some lease =>
    simp only [LeaseStore.releaseLease, hheld]
    split
    case isTrue hsame => simp [Owns]
    case isFalse hother =>
      intro howns
      have hown := (owns_iff hheld).mp howns
      exact hother (hown.trans (ownerText_eq_iff.mpr (htext howns)))

/-- The lease, the attempt and the effect of a job are those of the job that recorded it. -/
theorem Continues.owns_iff {job₀ : Job} (h : job₀.Continues job) {store : LeaseStore} :
    job.Owns store ↔ job₀.Owns store := by
  simp only [Owns, taskText, ownerText, h.envelope, h.workerId, h.fence]

/-- A release that does not recognize the lease leaves it where it is. -/
theorem owns_release (howns : job.Owns stores.redis.leaseStore)
    (htext : NumberText.tostring job.fence ≠ toString job.fence) :
    job.Owns (job.release stores).redis.leaseStore := by
  obtain ⟨lease, hheld, howner⟩ := howns
  have hstore : (job.release stores).redis.leaseStore =
      (stores.redis.leaseStore.releaseLease job.taskText job.workerId job.fence).1 := rfl
  have hother : lease.owner ≠ job.workerId ++ ":" ++ toString (job.fence : ℤ) := fun hsame =>
    htext (ownerText_eq_iff.mp (howner.symm.trans hsame))
  rw [hstore, LeaseStore.releaseLease, Option.mem_def.mp hheld]
  simp only [if_neg hother]
  exact ⟨lease, hheld, howner⟩

end Job

namespace Sys

variable {s s' : Sys} {i : ℕ}

/-- Whatever anybody does, what is recorded, closed or committed stays so. -/
theorem later_of_step {a : Action} (hstep : s.step a = some s') : s.db.Later s'.db := by
  rcases (moves_of_step hstep).worker_cases with
    ⟨j, job, job', stores', -, -, hmove, rfl⟩ | ⟨job, -, -, hdb, -⟩ | ⟨-, heffects, hattempts, -⟩
  · exact hmove.later
  · exact .of_eq (congrArg Db.attempts hdb) (congrArg Db.effects hdb)
  · exact .of_eq hattempts heffects

/-- Job `i` is inside `execute`. -/
def InExecute (i : ℕ) (s : Sys) : Prop :=
  ∃ job ∈ s.jobs[i]?, ∃ pc, job.pc = .execute pc

/-- What may happen to job `i`: its calls return, a renewal may raise while the handler runs,
and the handler ends in the given way. All others do what they like. -/
def Accepted (i : ℕ) (outcome : HandlerOutcome) (s : Sys) : Action → Prop
  | .jobStep _ (.ok _ _) => True
  | .jobStep j (.raise _ _ _ _) => j = i → ∃ job ∈ s.jobs[i]?, job.pc = .execute .handlerRunning
  | .jobStep j .crash => j ≠ i
  | .handler j ending => j = i → ending = outcome
  | _ => True

/-- Nothing is in the way of job `i` when it steps. -/
def Unhindered (i : ℕ) (s : Sys) : Action → Prop
  | .jobStep j _ => j = i → ∀ job ∈ s.jobs[i]?, job.CanClose s.stores
  | _ => True

instance (i : ℕ) (outcome : HandlerOutcome) (s : Sys) :
    (a : Action) → Decidable (s.Accepted i outcome a)
  | .jobStep _ (.ok _ _) => isTrue trivial
  | .jobStep j (.raise _ _ _ _) =>
    inferInstanceAs (Decidable (j = i → ∃ job ∈ s.jobs[i]?, job.pc = .execute .handlerRunning))
  | .jobStep j .crash => inferInstanceAs (Decidable (j ≠ i))
  | .handler j ending => inferInstanceAs (Decidable (j = i → ending = outcome))
  | .post _ _ | .postStep _ _ | .produce _ _ _ | .requeue _ _ | .requeueStep _ _ | .cancel _
  | .deliver _ _ _ | .adopt _ _ _ _ | .heartbeat _ | .promote _ _ | .expire _ => isTrue trivial

instance (i : ℕ) (s : Sys) : (a : Action) → Decidable (s.Unhindered i a)
  | .jobStep j _ => inferInstanceAs (Decidable (j = i → ∀ job ∈ s.jobs[i]?, job.CanClose s.stores))
  | .post _ _ | .postStep _ _ | .produce _ _ _ | .requeue _ _ | .requeueStep _ _ | .cancel _
  | .deliver _ _ _ | .adopt _ _ _ _ | .handler _ _ | .heartbeat _ | .promote _ _ | .expire _ =>
    isTrue trivial

/-- With this step job `i` leaves `execute`. -/
structure Leaves (i : ℕ) (s : Sys) (a : Action) (s' : Sys) : Prop where
  step : s.step a = some s'
  before : s.InExecute i
  after : ¬ s'.InExecute i

/-- What `execute` should leave behind when job `i` leaves it. -/
structure Settles (i : ℕ) (job : Job) (outcome : HandlerOutcome) (s' : Sys) : Prop where
  attempt : s'.db.Closed job.envelope.taskId job.envelope.attemptNo
  lease : ¬ job.Owns s'.redis.leaseStore
  returns : ∃ now ∈ s'.jobs[i]?, ∃ success text, now.pc = .returned success text
  effect : ∀ result, outcome = .returned result → s'.db.HasEffect job.key

/-- What is known of job `i` in every state after it has recorded its attempt. -/
structure Recording (i : ℕ) (job₀ : Job) (s : Sys) (job : Job) : Prop where
  at_ : s.jobs[i]? = some job
  continues : job₀.Continues job
  recorded : s.db.Recorded job.envelope.taskId job.envelope.attemptNo

theorem Recording.step {a : Action} {job₀ job : Job} (h : s.Recording i job₀ job)
    (hstep : s.step a = some s') : ∃ job', s'.Recording i job₀ job' := by
  have hlater := later_of_step hstep
  have hkept : s'.jobs[i]? = some job → ∃ job', s'.Recording i job₀ job' := fun hjob =>
    ⟨job, hjob, h.continues, hlater.recorded _ _ h.recorded⟩
  rcases (moves_of_step hstep).worker_cases with
    ⟨j, other, job', stores', -, hother, hmove, rfl⟩ | ⟨other, -, hjobs, -⟩ | ⟨hjobs, -⟩
  · by_cases hij : i = j
    · subst hij
      obtain rfl := Option.mem_unique h.at_ hother
      have hcontinues := h.continues.moves hmove
      refine ⟨job', Indexed.getElem?_set_of_eq h.at_, hcontinues, ?_⟩
      rw [hcontinues.envelope, ← h.continues.envelope]
      exact hlater.recorded _ _ h.recorded
    · exact hkept ((Indexed.getElem?_set_of_ne hij).trans h.at_)
  · exact hkept (Indexed.getElem?_of_grow ⟨[other], hjobs.symm⟩ h.at_)
  · exact hkept (hjobs ▸ h.at_)

variable {a : Action} {outcome : HandlerOutcome} {job₀ job : Job}

/-- A call of job `i` that is answered, and nothing in its way: it returns. -/
theorem proceed_of_unhindered {reply : Reply} (hjob : s.jobs[i]? = some job)
    (haccepted : s.Accepted i outcome (.jobStep i reply))
    (hfree : s.Unhindered i (.jobStep i reply)) (hstep : s.step (.jobStep i reply) = some s') :
    job.CanClose s.stores ∧ ∃ now draw out,
      job.proceed s.stores s.locks now draw = some out ∧ s' = s.setJob i out.1 out.2 := by
  have hcan : job.CanClose s.stores := hfree rfl job hjob
  refine ⟨hcan, ?_⟩
  cases reply with
  | ok now draw =>
    obtain ⟨out, hout, hset⟩ := proceed_of_step hjob hstep
    exact ⟨now, draw, out, hout, hset⟩
  | raise applied now draw message =>
    -- only a renewal may raise, and it stands in the way
    obtain ⟨job₁, hjob₁, hrunning⟩ := haccepted rfl
    obtain rfl := Option.mem_unique hjob hjob₁
    simp [Job.CanClose, hrunning] at hcan
  | crash => exact absurd rfl haccepted

/-- One step of a run in which nothing gets in the way of job `i`. -/
theorem phase_of_step (h : ∃ job, s.Recording i job₀ job ∧ job.Phase outcome s.db)
    (haccepted : s.Accepted i outcome a) (hfree : s.Unhindered i a)
    (hstep : s.step a = some s') : ∃ job, s'.Recording i job₀ job ∧ job.Phase outcome s'.db := by
  obtain ⟨job, hrecording, hphase⟩ := h
  obtain ⟨job', hrecording'⟩ := hrecording.step hstep
  refine ⟨job', hrecording', ?_⟩
  rcases job_cases_of_step hrecording.at_ hstep with
    ⟨reply, rfl⟩ | ⟨ending, closing, rfl, hclosing, rfl⟩ | hsame
  · obtain ⟨hcan, now, draw, out, hout, rfl⟩ :=
      proceed_of_unhindered hrecording.at_ haccepted hfree hstep
    obtain rfl : job' = out.2 := Indexed.eq_of_getElem?_set hrecording'.at_
    exact hphase.proceed hrecording.continues.pc.1 hrecording.recorded hcan hout
  · obtain rfl : ending = outcome := haccepted rfl
    obtain rfl : job' = closing := Indexed.eq_of_getElem?_set hrecording'.at_
    exact Job.Phase.of_handlerEnds hclosing
  · obtain rfl := Option.mem_unique hsame hrecording'.at_
    exact hphase.later (later_of_step hstep)

/-- The step with which such a run takes job `i` out of `execute` leaves it settled. -/
theorem settles_of_leaves (h : ∃ job, s.Recording i job₀ job ∧ job.Phase outcome s.db)
    (haccepted : s.Accepted i outcome a) (hfree : s.Unhindered i a)
    (hleaves : s.Leaves i a s') : s'.Settles i job₀ outcome := by
  obtain ⟨job, hrecording, hphase⟩ := h
  obtain ⟨job₁, hjob₁, pc, hpc⟩ := hleaves.before
  obtain rfl := Option.mem_unique hrecording.at_ hjob₁
  have hout : ∀ job' ∈ s'.jobs[i]?, ∀ pc, job'.pc ≠ .execute pc := fun job' hjob' pc hpc' =>
    hleaves.after ⟨job', hjob', pc, hpc'⟩
  rcases job_cases_of_step hrecording.at_ hleaves.step with
    ⟨reply, rfl⟩ | ⟨ending, closing, rfl, hclosing, rfl⟩ | hsame
  · obtain ⟨hcan, now, draw, out, hproceed, rfl⟩ :=
      proceed_of_unhindered hrecording.at_ haccepted hfree hleaves.step
    have hat : (s.setJob i out.1 out.2).jobs[i]? = some out.2 :=
      Indexed.getElem?_set_of_eq hrecording.at_
    -- the three ways out: a refused lease, a failed record, and the final release
    rcases (Job.proceeds_of_proceed hproceed).leaves_cases hpc (hout _ hat) with
      rfl | ⟨error, rfl⟩ | ⟨success, text, rfl, hstores, hjob⟩
    · exact absurd hpc hrecording.continues.pc.2
    · exact absurd hpc hphase.not_abandon
    · obtain ⟨hclosed, heffect⟩ := hphase.at_release hpc
      have hkey : job.key = job₀.key := by rw [Job.key, hrecording.continues.envelope, Job.key]
      rw [hrecording.continues.envelope] at hclosed
      refine ⟨?_, ?_, ⟨out.2, hat, success, text, ?_⟩, fun result houtcome => ?_⟩
      · rw [setJob_db, hstores]
        exact hclosed
      · rw [← hrecording.continues.owns_iff, setJob_redis, hstores]
        exact Job.not_owns_release (by simpa [Job.CanClose, hpc] using hcan)
      · rw [hjob]
        rfl
      · rw [setJob_db, hstores, ← hkey]
        exact heffect result houtcome
  · obtain ⟨pc', rfl⟩ := Job.goto_of_handlerEnds hclosing
    exact absurd rfl (hout _ (Indexed.getElem?_set_of_eq hrecording.at_) pc')
  · exact absurd hpc (hout job hsame pc)

theorem not_inExecute (hjob : s.jobs[i]? = some job) (hout : ∀ pc, job.pc ≠ .execute pc) :
    ¬ s.InExecute i := by
  rintro ⟨job₁, hjob₁, pc, hpc⟩
  obtain rfl := Option.mem_unique hjob hjob₁
  exact hout pc hpc

/-- The final release, when its call returns. -/
theorem leaves_of_release {success : Bool} {text : Option String} (hjob : s.jobs[i]? = some job)
    (hpc : job.pc = .execute (.releaseLease success text)) :
    s.Leaves i (.jobStep i (.ok 0 0))
      (s.setJob i (job.release s.stores) (job.returns success text)) := by
  have hrelease : job.proceed s.stores s.locks 0 0 =
      some (job.release s.stores, job.returns success text) := by
    simp [Job.proceed, hpc, Job.executeOk]
  exact ⟨step_of_proceed hjob hrelease, ⟨job, hjob, _, hpc⟩,
    not_inExecute (Indexed.getElem?_set_of_eq hjob) (by simp [Job.returns])⟩

/-- After a lookup that finds a newer effect, `execute` may end without another write to the
tables. -/
theorem exists_leaves_of_newer {result : Option Json} {row : EffectRow}
    (hjob : s.jobs[i]? = some job) (hpc : job.pc = .execute (.selectEffect result))
    (hrow : s.db.findEffect job.key = some row) (hlt : job.fence < row.fence) :
    ∃ u b v, Transition.ReachesWhen step (Accepted i outcome) s u ∧ u.Accepted i outcome b ∧
      u.Leaves i b v ∧ v.db = s.db := by
  generalize htext : Db.fenceRejectedText job.key row.fence job.fence = text
  have hselect : job.proceed s.stores s.locks 0 0 = some (s.stores, job.goto (.rollback text)) := by
    have hcheck : s.db.checkEffect job.key job.fence = .rejected text := by
      simp [Db.checkEffect, hrow, hlt, htext]
    simp [Job.proceed, hpc, Job.executeOk, hcheck]
  have hfirst := step_of_proceed hjob hselect
  have hrejected : (s.setJob i s.stores (job.goto (.rollback text))).jobs[i]? =
      some (job.goto (.rollback text)) := Indexed.getElem?_set_of_eq hjob
  have hrollback : (job.goto (.rollback text)).proceed s.stores
      (s.setJob i s.stores (job.goto (.rollback text))).locks 0 0 =
        some (s.stores, job.goto (.releaseLease false (some text))) := rfl
  have hsecond := step_of_proceed hrejected hrollback
  refine ⟨_, .jobStep i (.ok 0 0), _, .tail (.tail (.refl s) ?_ hfirst) ?_ hsecond, ?_,
    leaves_of_release (Indexed.getElem?_set_of_eq hrejected) rfl, rfl⟩ <;> exact trivial

/-- A hindrance in a state where job `i` is inside `execute` can leave things unsettled: at once
for a renewal that raises and for a release that does not recognize the lease, and when
`execute` ends for a newer effect. -/
theorem unsettled_of_hindered (hrecording : s.Recording i job₀ job)
    (haccepted : s.Accepted i outcome a) (hhindered : ¬ s.Unhindered i a)
    (hstep : s.step a = some s') :
    ∃ u b v, Transition.ReachesWhen step (Accepted i outcome) s u ∧ u.Accepted i outcome b ∧
      u.Leaves i b v ∧ ¬ v.Settles i job₀ outcome := by
  -- only a step of the job itself can be hindered
  obtain ⟨reply, rfl⟩ : ∃ reply, a = .jobStep i reply := by
    cases a with
    | jobStep j reply =>
      by_contra hne
      exact hhindered fun hij => absurd ⟨reply, by rw [hij]⟩ hne
    | _ => exact absurd trivial hhindered
  have hjob := hrecording.at_
  have hcan : ¬ job.CanClose s.stores := fun hcan => hhindered fun _ job₁ hjob₁ =>
    Option.mem_unique hjob hjob₁ ▸ hcan
  unfold Job.CanClose at hcan
  split at hcan
  case h_1 hpc =>
    -- the exception of the renewal comes out of `execute`
    obtain ⟨stores, ended, rfl, hended⟩ : ∃ stores ended, s' = s.setJob i stores ended ∧
        ended.pc = .ended := by
      rcases step_jobStep hjob hstep with ⟨now, draw, out, hout, -⟩ |
        ⟨message, failed, hfailed, rfl⟩ | ⟨-, rfl⟩
      · simp [Job.proceed, hpc, Job.executeOk] at hout
      · simp only [Job.raised, hpc, Job.executeRaised, Option.some.injEq] at hfailed
        exact ⟨_, failed, rfl, hfailed ▸ rfl⟩
      · exact ⟨_, _, rfl, rfl⟩
    have hset : (s.setJob i stores ended).jobs[i]? = some ended := Indexed.getElem?_set_of_eq hjob
    refine ⟨s, _, _, .refl s, haccepted,
      ⟨hstep, ⟨job, hjob, _, hpc⟩, not_inExecute hset (by simp [hended])⟩, fun hsettles => ?_⟩
    obtain ⟨now, hnow, success, text, hreturned⟩ := hsettles.returns
    obtain rfl := Option.mem_unique hset hnow
    simp [hended] at hreturned
  case h_2 result hpc =>
    obtain ⟨hnewer, hopen⟩ := not_or.mp hcan
    obtain ⟨row, hrow, hlt⟩ : ∃ row ∈ s.db.findEffect job.key, job.fence < row.fence := by
      simpa only [not_forall, not_le, exists_prop, stores_db] using hnewer
    obtain ⟨u, b, v, hrun, hb, hleaves, hdb⟩ :=
      exists_leaves_of_newer hjob hpc hrow hlt
    refine ⟨u, b, v, hrun, hb, hleaves, fun hsettles => hopen ?_⟩
    rw [stores_db, ← hdb, hrecording.continues.envelope]
    exact hsettles.attempt
  case h_3 success text hpc =>
    obtain ⟨howns, htext⟩ := Classical.not_imp.mp hcan
    refine ⟨s, .jobStep i (.ok 0 0), _, .refl s, trivial, leaves_of_release hjob hpc, ?_⟩
    intro hsettles
    apply hsettles.lease
    rw [← hrecording.continues.owns_iff]
    exact Job.owns_release howns htext
  case h_4 => exact absurd trivial hcan

/-- The row is committed, or job `i` is about to commit it. -/
def Inserts (i : ℕ) (row : EffectRow) (s : Sys) : Prop :=
  row ∈ s.db.effects ∨ ∃ job result, s.jobs[i]? = some job ∧ job.effectRow result = row ∧
    (job.pc = .execute (.insertEffect result) ∨ job.pc = .execute (.commitSuccess result true))

/-- As long as Postgres takes the statements, a row that is to be inserted stays on its way. -/
theorem inserts_of_step {row : EffectRow} (h : s.Inserts i row)
    (haccepted : s.Accepted i outcome a) (hstep : s.step a = some s') : s'.Inserts i row := by
  rcases h with hrow | ⟨job, result, hjob, hrow, hpc⟩
  · exact Or.inl ((effects_grow_of_step hstep).subset hrow)
  rcases job_cases_of_step hjob hstep with
    ⟨reply, rfl⟩ | ⟨ending, closing, rfl, hclosing, -⟩ | hsame
  · cases reply with
    | ok now draw =>
      obtain ⟨out, hout, rfl⟩ := proceed_of_step hjob hstep
      rcases hpc with hpc | hpc
      · simp only [Job.proceed, hpc, Job.executeOk] at hout
        split_ifs at hout with hbusy
        obtain rfl := Option.some.inj hout
        exact Or.inr ⟨_, result, Indexed.getElem?_set_of_eq hjob, hrow, Or.inr rfl⟩
      · simp only [Job.proceed, hpc, Job.executeOk] at hout
        split_ifs at hout with hlock
        obtain rfl := Option.some.inj hout
        exact Or.inl (List.mem_append_right _ (List.mem_singleton.mpr hrow.symm))
    | raise applied now draw message =>
      obtain ⟨job₁, hjob₁, hrunning⟩ := haccepted rfl
      obtain rfl := Option.mem_unique hjob hjob₁
      simp [hrunning] at hpc
    | crash => exact absurd rfl haccepted
  · -- the handler has ended before
    rcases hpc with hpc | hpc <;> cases ending <;> simp [Job.handlerEnds, hpc] at hclosing
  · exact Or.inr ⟨job, result, hsame, hrow, hpc⟩

/-- The record of an attempt is where the run starts. -/
theorem recording_of_record {now draw : ℚ} {s₁ : Sys} (hjob : s.jobs[i]? = some job₀)
    (hpc : job₀.pc = .execute .recordAttempt)
    (hrecord : s.step (.jobStep i (.ok now draw)) = some s₁) :
    s₁.Recording i job₀ (job₀.goto .startHandler) := by
  obtain ⟨out, hout, rfl⟩ := proceed_of_step hjob hrecord
  simp only [Job.proceed, hpc, Job.executeOk] at hout
  split_ifs at hout with hlock
  obtain ⟨db, hdb, rfl⟩ := Option.map_eq_some_iff.mp hout
  obtain ⟨-, -, rfl⟩ := Db.createAttempt_eq_some hdb
  refine ⟨Indexed.getElem?_set_of_eq hjob, ⟨rfl, rfl, rfl, by simp [Job.goto]⟩, ?_⟩
  exact ⟨job₀.attemptRow, List.mem_append_right _ (List.mem_singleton_self _), rfl, rfl⟩

/-- After a lookup that finds nothing, the row that is committed when `execute` ends is the
job's own: it is on its way from the lookup on, and at the end it has arrived. -/
theorem effect_of_absent {result : Option Json} {now draw : ℚ} {w : Sys}
    (hjob : s.jobs[i]? = some job) (hlookup : job.pc = .execute (.selectEffect result))
    (hnone : ¬ s.db.HasEffect job.key) (hstep : s.step (.jobStep i (.ok now draw)) = some s')
    (hrest : Transition.ReachesWhen step (Accepted i outcome) s' w) (hout : ¬ w.InExecute i) :
    job.effectRow result ∈ w.db.effects := by
  have habsent : job.proceed s.stores s.locks now draw =
      some (s.stores, job.goto (.insertEffect result)) := by
    simp [Job.proceed, hlookup, Job.executeOk, Db.checkEffect_eq_absent_iff.mpr hnone]
  obtain rfl := Option.mem_unique (step_of_proceed hjob habsent) hstep
  have hinserts := hrest.invariant (I := Inserts i (job.effectRow result))
    (fun u a v hu hcond hstep => inserts_of_step hu hcond hstep)
    (Or.inr ⟨_, result, Indexed.getElem?_set_of_eq hjob, rfl, Or.inl rfl⟩)
  rcases hinserts with hmem | ⟨job', result', hjob', -, hpc' | hpc'⟩
  · exact hmem
  · exact absurd ⟨job', hjob', _, hpc'⟩ hout
  · exact absurd ⟨job', hjob', _, hpc'⟩ hout

/-- The runs in which nothing gets in the way of job `i`. -/
abbrev ReachesUnhindered (i : ℕ) (outcome : HandlerOutcome) : Sys → Sys → Prop :=
  Transition.ReachesWhen step fun s a => s.Accepted i outcome a ∧ s.Unhindered i a

/-- A worker is about to record the only attempt of a task. -/
def aboutToRecord : List Action :=
  accept 0 { queue := "q", taskName := "t", payload := .null, maxAttempts := 1 } ⟨1⟩ ++
    [.deliver "a" 100 "q"] ++ proceeds 0 1

end Sys

end Dtq
