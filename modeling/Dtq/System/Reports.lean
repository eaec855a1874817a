import Dtq.System.Refusals

/-!
# What becomes of a handler's exception

`execute` knows the class of the exception that its handler raised, and writes it to the
attempt. To `_process_message` it returns a text: the traceback, the message of a timeout or
of a `FenceRejectedError`, or a `CommitError` when the attempt could not be closed. The part
of that text before the first colon is what `is_retryable` is asked about.

## Main results

* `errorTypeOf_traceback` — the name that is found in a traceback
* `Sys.retry_follows_iff` — when the decision is the one for the class that was raised
-/

set_option autoImplicit false

namespace Dtq

/-- The class of the exception a handler ended with. -/
def HandlerOutcome.errorType : HandlerOutcome → Option String
  | .returned _ => none
  | .timedOut _ => some "TimeoutError"
  | .fenceRejected _ => some "FenceRejectedError"
  | .raised errorType _ => some errorType

/-- The `error_repr` that `execute` makes of it. -/
def HandlerOutcome.errorRepr : HandlerOutcome → Option String
  | .returned _ => none
  | .timedOut ms => some ("Task exceeded execution timeout (" ++ ms ++ "ms)")
  | .fenceRejected message => some message
  | .raised _ traceback => some traceback

/-- The error lists of the policy let a class be retried. -/
def RetryPolicy.Admits (policy : RetryPolicy) (errorType : String) : Prop :=
  errorType ∉ policy.terminalErrors ∧
    (policy.retryableErrors = [] ∨ errorType ∈ policy.retryableErrors)

instance (policy : RetryPolicy) (errorType : String) : Decidable (policy.Admits errorType) :=
  inferInstanceAs (Decidable (_ ∧ _))

theorem isRetryable_iff {policy : RetryPolicy} {errorType : String} {attempt : ℕ} :
    isRetryable policy errorType attempt = true ↔
      (attempt : ℤ) < policy.maxAttempts ∧ policy.Admits errorType := by
  unfold isRetryable RetryPolicy.Admits
  by_cases hlimit : policy.maxAttempts ≤ attempt
  · simp [hlimit, not_lt.mpr hlimit]
  · by_cases hterminal : errorType ∈ policy.terminalErrors
    · simp [hterminal]
    · by_cases hlist : policy.retryableErrors = [] <;>
        simp [hlimit, hterminal, hlist, not_le.mp hlimit]

/-- A text that starts with a name and a colon gives back the name. -/
theorem errorTypeOf_append {name : String} (h : ':' ∉ name.toList) (rest : String) :
    errorTypeOf (some (name ++ ":" ++ rest)) = name := by
  have hcolon : (":" : String).toList = [':'] := rfl
  have hall : ∀ c ∈ name.toList, (decide (c ≠ ':')) = true := fun c hc =>
    decide_eq_true fun heq => h (heq ▸ hc)
  simp only [errorTypeOf, String.toList_append, hcolon, List.append_assoc, List.singleton_append]
  rw [List.takeWhile_append_of_pos hall, List.takeWhile_cons_of_neg (by simp), List.append_nil,
    String.ofList_toList]

/-- The name found in the text of `traceback.format_exc()` is its heading, whatever was raised. -/
theorem errorTypeOf_traceback (rest : String) :
    errorTypeOf (some ("Traceback (most recent call last):" ++ rest)) =
      "Traceback (most recent call last)" :=
  errorTypeOf_append (show ':' ∉ "Traceback (most recent call last)".toList by decide) rest

theorem errorTypeOf_commitError (message : String) :
    errorTypeOf (some ("CommitError: " ++ message)) = "CommitError" := by
  have hsplit : "CommitError: " ++ message = "CommitError" ++ ":" ++ (" " ++ message) := by
    rw [← String.append_assoc]
    rfl
  rw [hsplit]
  exact errorTypeOf_append (by decide) _

namespace Job

variable {stores : Stores} {locks : Locks} {now draw : ℚ} {out : Stores × Job}

/-- When its next call returns, the job has scheduled its envelope's next attempt. -/
def SchedulesRetry (job : Job) : Prop :=
  ∀ stores locks now draw, ∃ delay, job.proceed stores locks now draw =
    some (job.onQueue stores (·.schedule job.envelope.nextAttempt (now + delay)),
      { job with pc := .ack })

/-- When its next call returns, the job has dead-lettered its envelope. -/
def DeadLetters (job : Job) : Prop :=
  ∀ stores locks now draw, ∃ reason, job.proceed stores locks now draw =
    some (job.onQueue stores (·.deadLetter job.envelope reason), { job with pc := .markDead })

/-- The decision is the one that `is_retryable` makes for a class. -/
def Follows (job : Job) (errorType : String) : Prop :=
  (job.SchedulesRetry ↔
    isRetryable job.envelope.retryPolicy errorType (job.envelope.attempt + 1) = true) ∧
  (job.DeadLetters ↔
    isRetryable job.envelope.retryPolicy errorType (job.envelope.attempt + 1) = false)

theorem schedulesRetry_iff {job : Job} {report : Option String}
    (hpc : job.pc = .returned false report) :
    job.SchedulesRetry ↔ job.retries report = true ∧ job.envelope.attempt < 1024 := by
  constructor
  · intro hschedules
    obtain ⟨delay, hout⟩ := hschedules ⟨.empty, .empty⟩ ⟨fun _ => false, fun _ => false⟩ 0 0
    simp only [proceed, hpc] at hout
    split_ifs at hout with hretry
    · refine ⟨hretry, ?_⟩
      by_contra hlarge
      rw [computeDelay_eq_none_iff.mpr (not_lt.mp hlarge)] at hout
      exact absurd hout (by simp)
    · have hpc' := congrArg (fun o => o.map fun p : Stores × Job => p.2.pc) hout
      exact absurd hpc' (by simp)
  · rintro ⟨hretry, hlt⟩ stores locks now draw
    obtain ⟨delay, hdelay⟩ : ∃ delay,
        computeDelay job.envelope.retryPolicy (job.envelope.attempt + 1) draw = some delay :=
      ⟨_, if_pos hlt⟩
    refine ⟨delay, ?_⟩
    simp only [proceed, hpc, hretry, if_true, hdelay, Option.map_some]

theorem deadLetters_iff {job : Job} {report : Option String}
    (hpc : job.pc = .returned false report) :
    job.DeadLetters ↔ job.retries report = false := by
  constructor
  · intro hdead
    obtain ⟨reason, hout⟩ := hdead ⟨.empty, .empty⟩ ⟨fun _ => false, fun _ => false⟩ 0 0
    simp only [proceed, hpc] at hout
    split_ifs at hout with hretry
    · obtain ⟨delay, -, hpair⟩ := Option.map_eq_some_iff.mp hout
      have hpc' := congrArg (fun p : Stores × Job => p.2.pc) hpair
      exact absurd hpc' (by simp)
    · simpa using hretry
  · intro hretry stores locks now draw
    refine ⟨deadLetterReason report, ?_⟩
    simp only [proceed, hpc, hretry, Bool.false_eq_true, if_false]

/-- The decision follows a class exactly when the limit is reached, or the lists treat the class
like the name found in the report, and the retry that they allow can be timed. -/
theorem follows_iff {job : Job} {text : String} (hpc : job.pc = .returned false (some text))
    (errorType : String) :
    job.Follows errorType ↔
      job.envelope.retryPolicy.maxAttempts ≤ (job.envelope.attempt + 1 : ℕ) ∨
        (job.envelope.retryPolicy.Admits errorType ↔
          job.envelope.retryPolicy.Admits (errorTypeOf (some text))) ∧
        (job.envelope.retryPolicy.Admits errorType → job.envelope.attempt < 1024) := by
  rw [Follows, schedulesRetry_iff hpc, deadLetters_iff hpc, retries, Bool.eq_false_iff,
    Bool.eq_false_iff, Ne, Ne, isRetryable_iff, isRetryable_iff]
  by_cases hlimit : job.envelope.retryPolicy.maxAttempts ≤ (job.envelope.attempt + 1 : ℕ)
  · have hnot := not_lt.mpr hlimit
    simp only [hlimit, hnot, false_and, not_false_eq_true, true_or, and_self]
  · have hlt := not_le.mp hlimit
    simp only [hlimit, hlt, true_and, false_or]
    tauto

/-- What a job may be at once its handler has ended with an error: the report is the error's own
text, or a `CommitError`. -/
structure AfterError (errorType text : String) (e : TaskEnvelope) (job : Job) : Prop where
  envelope : job.envelope = e
  pc : job.pc = .execute (.closeFailed errorType text) ∨
    (∃ report, (report = text ∨ ∃ message, report = "CommitError: " ++ message) ∧
      (job.pc = .execute (.rollback report) ∨
        job.pc = .execute (.releaseLease false (some report)) ∨
        job.pc = .returned false (some report))) ∨
    job.pc = .markDead ∨ job.pc = .ack ∨ job.pc = .ended

variable {errorType text : String} {e : TaskEnvelope} {job : Job}

theorem AfterError.proceed (h : AfterError errorType text e job)
    (hout : job.proceed stores locks now draw = some out) : AfterError errorType text e out.2 := by
  obtain ⟨henvelope, hclose | ⟨report, hreport, hroll | hrelease | hreturned⟩ | hdead | hack |
    hended⟩ := h
  · simp only [Job.proceed, hclose, executeOk, Option.some.injEq] at hout
    subst hout
    exact ⟨henvelope, Or.inr (Or.inl ⟨text, Or.inl rfl, Or.inr (Or.inl rfl)⟩)⟩
  · simp only [Job.proceed, hroll, executeOk, Option.some.injEq] at hout
    subst hout
    exact ⟨henvelope, Or.inr (Or.inl ⟨report, hreport, Or.inr (Or.inl rfl)⟩)⟩
  · simp only [Job.proceed, hrelease, executeOk, Option.some.injEq] at hout
    subst hout
    exact ⟨henvelope, Or.inr (Or.inl ⟨report, hreport, Or.inr (Or.inr rfl)⟩)⟩
  · simp only [Job.proceed, hreturned] at hout
    split_ifs at hout with hretry
    · obtain ⟨delay, -, rfl⟩ := Option.map_eq_some_iff.mp hout
      exact ⟨henvelope, Or.inr (Or.inr (Or.inr (Or.inl rfl)))⟩
    · obtain rfl := Option.some.inj hout
      exact ⟨henvelope, Or.inr (Or.inr (Or.inl rfl))⟩
  · simp only [Job.proceed, hdead] at hout
    split_ifs at hout
    obtain rfl := Option.some.inj hout
    exact ⟨henvelope, Or.inr (Or.inr (Or.inr (Or.inl rfl)))⟩
  · simp only [Job.proceed, hack, Option.some.injEq] at hout
    subst hout
    exact ⟨henvelope, Or.inr (Or.inr (Or.inr (Or.inr rfl)))⟩
  · simp [Job.proceed, hended] at hout

theorem AfterError.raised (h : AfterError errorType text e job) {message : String} {failed : Job}
    (hraised : job.raised message = some failed) : AfterError errorType text e failed := by
  have hdone : ∀ {pc : Pc}, pc = .ended → AfterError errorType text e { job with pc := pc } :=
    fun hpc => ⟨h.envelope, Or.inr (Or.inr (Or.inr (Or.inr hpc)))⟩
  obtain ⟨henvelope, hclose | ⟨report, hreport, hroll | hrelease | hreturned⟩ | hdead | hack |
    hended⟩ := h
  · -- the transaction that closes the attempt fails
    simp only [Job.raised, hclose, executeRaised, Option.some.injEq] at hraised
    subst hraised
    exact ⟨henvelope, Or.inr (Or.inl ⟨_, Or.inr ⟨message, rfl⟩, Or.inl rfl⟩)⟩
  · simp only [Job.raised, hroll, executeRaised, Option.some.injEq] at hraised
    exact hraised ▸ hdone rfl
  · simp only [Job.raised, hrelease, executeRaised, Option.some.injEq] at hraised
    exact hraised ▸ hdone rfl
  · simp only [Job.raised, hreturned, Option.some.injEq] at hraised
    exact hraised ▸ hdone rfl
  · simp only [Job.raised, hdead, Option.some.injEq] at hraised
    exact hraised ▸ hdone rfl
  · simp only [Job.raised, hack, Option.some.injEq] at hraised
    exact hraised ▸ hdone rfl
  · simp [Job.raised, hended] at hraised

/-- The handler of such a job has ended and cannot end again. -/
theorem AfterError.handlerEnds (h : AfterError errorType text e job) (outcome : HandlerOutcome) :
    job.handlerEnds outcome = none := by
  have hpc : job.pc ≠ .execute .handlerRunning ∧ job.pc ≠ .execute .startHandler := by
    rcases h.pc with hpc | ⟨report, -, hpc | hpc | hpc⟩ | hpc | hpc | hpc <;> simp [hpc]
  cases outcome <;> simp [Job.handlerEnds, hpc.1, hpc.2]

/-- A handler that ends with an error leads to the transaction that closes the attempt. -/
theorem afterError_of_handlerEnds {outcome : HandlerOutcome} {closing : Job}
    (htype : outcome.errorType = some errorType) (h : job.handlerEnds outcome = some closing) :
    ∃ text, outcome.errorRepr = some text ∧ AfterError errorType text job.envelope closing := by
  cases outcome with
  | returned result => simp [HandlerOutcome.errorType] at htype
  | timedOut | fenceRejected | raised =>
    simp only [Job.handlerEnds] at h
    split_ifs at h
    obtain rfl := Option.some.inj h
    obtain rfl := Option.some.inj htype
    exact ⟨_, rfl, rfl, Or.inl rfl⟩

end Job

namespace Sys

variable {s s' : Sys} {i : ℕ}

/-- A step is a call of job `i` or the end of its handler, or it leaves the job alone. -/
theorem job_cases_of_step {a : Action} {job : Job} (hjob : s.jobs[i]? = some job)
    (hstep : s.step a = some s') : (∃ reply, a = .jobStep i reply) ∨
      (∃ outcome job', a = .handler i outcome ∧ job.handlerEnds outcome = some job' ∧
        s' = s.setJob i s.stores job') ∨ s'.jobs[i]? = some job := by
  rcases (moves_of_step hstep).worker_cases with
    ⟨j, other, other', stores', ha, -, -, rfl⟩ | ⟨other, -, hjobs, -⟩ | ⟨hjobs, -⟩
  · by_cases hij : i = j
    · subst hij
      rcases ha with ⟨reply, rfl, -⟩ | ⟨⟨outcome, rfl⟩, -⟩
      · exact Or.inl ⟨reply, rfl⟩
      · obtain ⟨job', hends, hset⟩ := handlerEnds_of_step hjob hstep
        exact Or.inr (Or.inl ⟨outcome, job', rfl, hends, hset⟩)
    · exact Or.inr (Or.inr ((Indexed.getElem?_set_of_ne hij).trans hjob))
  · exact Or.inr (Or.inr (Indexed.getElem?_of_grow ⟨[other], hjobs.symm⟩ hjob))
  · exact Or.inr (Or.inr (hjobs ▸ hjob))

/-- Whatever anybody does, a job whose handler ended with an error stays on its way. -/
theorem afterError_of_step {a : Action} {errorType text : String} {e : TaskEnvelope}
    (h : ∃ job, s.jobs[i]? = some job ∧ job.AfterError errorType text e)
    (hstep : s.step a = some s') :
    ∃ job, s'.jobs[i]? = some job ∧ job.AfterError errorType text e := by
  obtain ⟨job, hjob, hafter⟩ := h
  have hset : ∀ (stores : Stores) {job' : Job},
      (s.setJob i stores job').jobs[i]? = some job' := fun _ => Indexed.getElem?_set_of_eq hjob
  rcases job_cases_of_step hjob hstep with
    ⟨reply, rfl⟩ | ⟨outcome, job', rfl, hends, rfl⟩ | hsame
  · rcases step_jobStep hjob hstep with
      ⟨now, draw, out, hout, rfl | ⟨message, failed, hfailed, rfl⟩⟩ |
      ⟨message, failed, hfailed, rfl⟩ | ⟨-, rfl⟩
    · exact ⟨_, hset _, hafter.proceed hout⟩
    · -- the call raised after it took effect: the report is that of the exception
      exact ⟨_, hset _, ⟨(hafter.proceed hout).envelope, (hafter.raised hfailed).pc⟩⟩
    · exact ⟨_, hset _, hafter.raised hfailed⟩
    · exact ⟨_, hset _, ⟨hafter.envelope, Or.inr (Or.inr (Or.inr (Or.inr rfl)))⟩⟩
  · -- the handler has ended before
    simp [hafter.handlerEnds] at hends
  · exact ⟨job, hsame, hafter⟩

/-- **Retry decisions.** A handler ends with an exception of some class. Whatever happens until
`execute` has reported the failure, the report is the text of the exception or a `CommitError`;
and the next call of `_process_message` schedules a retry when `is_retryable` says so for that
class, and dead-letters the envelope when it does not, exactly when the attempt limit is
reached or the error lists treat the class like the name found in the report and, if they let
it be retried, the delay of the retry can be computed. -/
theorem retry_follows_iff {s₁ : Sys} {job job' : Job} {outcome : HandlerOutcome}
    {errorType : String} {report : Option String} (hjob : s.jobs[i]? = some job)
    (htype : outcome.errorType = some errorType) (hhandler : s.step (.handler i outcome) = some s₁)
    (hrun : Transition.Reaches step s₁ s') (hjob' : s'.jobs[i]? = some job')
    (hpc : job'.pc = .returned false report) :
    ∃ text, report = some text ∧
      (outcome.errorRepr = some text ∨ ∃ message, text = "CommitError: " ++ message) ∧
      (job'.Follows errorType ↔
        job.envelope.retryPolicy.maxAttempts ≤ (job.envelope.attempt + 1 : ℕ) ∨
          (job.envelope.retryPolicy.Admits errorType ↔
            job.envelope.retryPolicy.Admits (errorTypeOf (some text))) ∧
          (job.envelope.retryPolicy.Admits errorType → job.envelope.attempt < 1024)) := by
  obtain ⟨closing, hclosing, rfl⟩ := handlerEnds_of_step hjob hhandler
  obtain ⟨text, htext, hafter⟩ := Job.afterError_of_handlerEnds htype hclosing
  have hstart : ∃ job', (s.setJob i s.stores closing).jobs[i]? = some job' ∧
      job'.AfterError errorType text job.envelope :=
    ⟨closing, Indexed.getElem?_set_of_eq hjob, hafter⟩
  obtain ⟨job₂, hjob₂, hafter'⟩ := hrun.invariant
    (I := fun u => ∃ job', u.jobs[i]? = some job' ∧ job'.AfterError errorType text job.envelope)
    (fun u a v hu hstep => afterError_of_step hu hstep) hstart
  obtain rfl := Option.mem_unique hjob' hjob₂
  -- where `execute` has returned, the report is the one that was on its way
  have hreport : ∃ text', report = some text' ∧
      (text' = text ∨ ∃ message, text' = "CommitError: " ++ message) := by
    have hat := hafter'.pc
    rw [hpc] at hat
    simp only [reduceCtorEq, false_or, or_false, Pc.returned.injEq, true_and] at hat
    obtain ⟨text', htext', hsame⟩ := hat
    exact ⟨text', hsame, htext'⟩
  obtain ⟨text', rfl, htext'⟩ := hreport
  refine ⟨text', rfl, htext'.imp_left fun heq : text' = text => ?_, ?_⟩
  · rw [heq, htext]
  rw [← hafter'.envelope]
  exact Job.follows_iff hpc errorType

/-- A worker runs the handler of the first attempt of a task. -/
def running (policy : RetryPolicy) : Sys :=
  let e : TaskEnvelope := { taskId := ⟨1⟩, queue := "q", taskName := "t", payload := .obj [],
                            retryPolicy := policy, createdAt := 0 }
  { init with
    jobs := [{ workerId := "a", leaseMs := 30000, queue := "q", msgId := 0, envelope := e,
               pc := .execute .handlerRunning, fence := 1, started := true }] }

/-- The text of `traceback.format_exc()` when a handler raises. -/
def tracebackOf (errorType message : String) : String :=
  "Traceback (most recent call last):\n  File \"executor.py\", line 113, in execute\n" ++
    errorType ++ ": " ++ message ++ "\n"

/-- From the end of the handler, `execute` returns its report. -/
def untilReturned (errorType message : String) : List Action :=
  .handler 0 (.raised errorType (tracebackOf errorType message)) :: proceeds 0 2

/-- The theorem without error lists: the decision is right although the name is wrong. -/
theorem retry_follows_iff_plain : ∃ (s' : Sys) (job' : Job) (text : String),
    s'.jobs[0]? = some job' ∧ job'.pc = .returned false (some text) ∧
    errorTypeOf (some text) ≠ "ValueError" ∧ job'.Follows "ValueError" := by
  obtain ⟨s₁, hrun₁, hsome⟩ := Transition.exists_run_of_check step (running {})
    [.handler 0 (.raised "ValueError" (tracebackOf "ValueError" "bad payload"))]
    (fun s₁ => (Transition.run step s₁ (proceeds 0 2)).any fun s' =>
      s'.jobs[0]?.any fun job' =>
        job'.pc = .returned false (some (tracebackOf "ValueError" "bad payload")))
    (by decide +kernel)
  obtain ⟨s', hrun, hcheck⟩ := (Option.any_eq_true _ _).mp hsome
  obtain ⟨job', hjob', hpc⟩ := (Option.any_eq_true _ _).mp hcheck
  have hhandler : (running {}).step
      (.handler 0 (.raised "ValueError" (tracebackOf "ValueError" "bad payload"))) = some s₁ := by
    simpa [Transition.run] using hrun₁
  obtain ⟨text, htext, -, hiff⟩ := retry_follows_iff rfl rfl hhandler (.of_run hrun) hjob'
    (of_decide_eq_true hpc)
  refine ⟨s', job', text, hjob', (of_decide_eq_true hpc).trans (congrArg _ htext), ?_,
    hiff.mpr (Or.inr ?_)⟩
  · rw [← htext]
    decide +kernel
  · rw [← htext]
    decide +kernel

/-- A `ValueError` listed as terminal is retried, and a `ConnectionError` that alone is worth a
retry is dead-lettered, both on the first of five attempts. -/
theorem terminal_error_retried :
    (∃ (s' : Sys) (job' : Job),
      Transition.run step (running { terminalErrors := ["ValueError"] })
        (untilReturned "ValueError" "bad payload") = some s' ∧
      s'.jobs[0]? = some job' ∧ job'.SchedulesRetry ∧ ¬ job'.Follows "ValueError") ∧
    ∃ (s' : Sys) (job' : Job),
      Transition.run step (running { retryableErrors := ["ConnectionError"] })
        (untilReturned "ConnectionError" "refused") = some s' ∧
      s'.jobs[0]? = some job' ∧ job'.DeadLetters ∧ ¬ job'.Follows "ConnectionError" := by
  constructor
  · obtain ⟨s', hrun, hcheck⟩ := Transition.exists_run_of_check step
      (running { terminalErrors := ["ValueError"] }) (untilReturned "ValueError" "bad payload")
      (fun s' => s'.jobs[0]?.any fun job' =>
        job'.pc = .returned false (some (tracebackOf "ValueError" "bad payload")) ∧
          job'.retries (some (tracebackOf "ValueError" "bad payload")) = true ∧
          job'.envelope.attempt = 0 ∧
          isRetryable job'.envelope.retryPolicy "ValueError" (job'.envelope.attempt + 1) = false)
      (by decide +kernel)
    obtain ⟨job', hjob', hjobCheck⟩ := (Option.any_eq_true _ _).mp hcheck
    obtain ⟨hpc, hretry, hattempt, hterminal⟩ := of_decide_eq_true hjobCheck
    have hschedules : job'.SchedulesRetry :=
      (Job.schedulesRetry_iff hpc).mpr ⟨hretry, by omega⟩
    refine ⟨s', job', hrun, hjob', hschedules, fun hfollows => ?_⟩
    rw [hfollows.1.mp hschedules] at hterminal
    exact absurd hterminal (by simp)
  · obtain ⟨s', hrun, hcheck⟩ := Transition.exists_run_of_check step
      (running { retryableErrors := ["ConnectionError"] })
      (untilReturned "ConnectionError" "refused")
      (fun s' => s'.jobs[0]?.any fun job' =>
        job'.pc = .returned false (some (tracebackOf "ConnectionError" "refused")) ∧
          job'.retries (some (tracebackOf "ConnectionError" "refused")) = false ∧
          isRetryable job'.envelope.retryPolicy "ConnectionError" (job'.envelope.attempt + 1) =
            true)
      (by decide +kernel)
    obtain ⟨job', hjob', hjobCheck⟩ := (Option.any_eq_true _ _).mp hcheck
    obtain ⟨hpc, hretry, hlisted⟩ := of_decide_eq_true hjobCheck
    have hdead : job'.DeadLetters := (Job.deadLetters_iff hpc).mpr hretry
    refine ⟨s', job', hrun, hjob', hdead, fun hfollows => ?_⟩
    rw [hfollows.2.mp hdead] at hlisted
    exact absurd hlisted (by simp)

end Sys

end Dtq
