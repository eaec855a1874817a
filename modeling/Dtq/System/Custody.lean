import Dtq.System.Effects
import Dtq.System.Enqueue
import Dtq.System.Queues

/-!
# No task is lost

A message changes hands between the stream, the pending list, the schedule, the
dead-letter queue and finally a committed effect, and every hand-over takes several calls
that may fail in between. `_process_message` acknowledges last, so that the next carrier
is always there before the previous one is given up.

The invariant says this with one refinement: a pending entry counts only while no job for
it is on its way to acknowledge it.

## Main results

* `Sys.CustodyInv` — in runs without requeues, every accepted envelope has a carrier that
  nobody is about to drop
* `Sys.no_task_lost` — no accepted task is lost by the workers
-/

set_option autoImplicit false

namespace Dtq

/-- The message is about to be acknowledged. -/
def Pc.Finishing : Pc → Prop
  | .returned true _ | .markDead | .ack => True
  | _ => False

/-- The next call is the acknowledgement. -/
def Pc.Acks : Pc → Prop
  | .returned true _ | .ack => True
  | _ => False

theorem Pc.Acks.finishing {pc : Pc} (h : pc.Acks) : pc.Finishing := by
  unfold Pc.Acks at h
  split at h
  · trivial
  · trivial
  · exact h.elim

theorem Pc.Exceptional.not_finishing {pc : Pc} (h : pc.Exceptional) : ¬ pc.Finishing := by
  cases h <;> exact id

namespace Job

variable {job job' : Job} {stores stores' : Stores} {locks : Locks}

theorem Starting.not_finishing (h : job.Starting) : ¬ job.pc.Finishing := by
  rcases h.pc with hpc | hpc <;> simp [hpc, Pc.Finishing]

/-- A job turns to acknowledging only after the retry is scheduled, the dead letter is
filed, or on its way to success. -/
theorem Moves.finishing_cases (h : job.Moves stores locks stores' job')
    (hfin : job'.pc.Finishing) :
    job.pc.Finishing ∨ job.pc.Succeeds ∨
      (∃ runAt, stores'.redis =
        stores.redis.modifyQueue job.queue (·.schedule job.envelope.nextAttempt runAt)) ∨
      ∃ reason, stores'.redis =
        stores.redis.modifyQueue job.queue (·.deadLetter job.envelope reason) := by
  cases h with
  | proceeds h =>
    cases h with
    | released success text hpc =>
      cases success with
      | true => exact Or.inr (Or.inl (by simp [hpc, Pc.Succeeds]))
      | false => simp [returns, Pc.Finishing] at hfin
    | scheduledRetry text runAt hpc => exact Or.inr (Or.inr (Or.inl ⟨runAt, rfl⟩))
    | deadLettered text hpc => exact Or.inr (Or.inr (Or.inr ⟨_, rfl⟩))
    | markedDead hpc => exact Or.inl (by simp [hpc, Pc.Finishing])
    | _ => simp [returns, goto, adopted, Pc.Finishing] at hfin
  | raisedAfter h hexc | failed hactive hexc => exact absurd hfin hexc.not_finishing
  | skippedPrior hpc => simp [adopted, Pc.Finishing] at hfin
  | handlerEnded hpc hnext =>
    obtain ⟨r, rfl⟩ | ⟨type, text, rfl⟩ := hnext <;> simp [goto, Pc.Finishing] at hfin

end Job

namespace QueueState

variable {q q' : QueueState} {e e' : TaskEnvelope}

/-- The queue still has work to hand out for the task of `e`: an undelivered entry, or a
member of the schedule, or a dead letter on file. -/
def Keeps (q : QueueState) (e : TaskEnvelope) : Prop :=
  (∃ k e', q.delivered ≤ k ∧ q.stream[k]? = some e' ∧ e.SameTask e') ∨
    (∃ m ∈ q.sched, e.SameTask m.1) ∨ ∃ d ∈ q.dlq, e.SameTask d.1

theorem Added.delivered_eq (h : q.Added e q') : q'.delivered = q.delivered := by
  cases h <;> rfl

theorem Added.pending_eq (h : q.Added e q') : q'.pending = q.pending := by
  cases h <;> rfl

/-- What is on the stream stays where it is. -/
theorem Added.stream_grow (h : q.Added e q') : q.stream <+: q'.stream := by
  cases h with
  | published => exact List.prefix_append _ _
  | scheduled => exact List.prefix_refl _

theorem Added.keeps (h : q.Added e' q') (hkeeps : q.Keeps e) : q'.Keeps e := by
  rcases hkeeps with ⟨k, x, hk, hx, hsame⟩ | ⟨m, hm, hsame⟩ | hdlq
  · refine Or.inl ⟨k, x, h.delivered_eq ▸ hk, ?_, hsame⟩
    exact Indexed.getElem?_of_grow h.stream_grow hx
  · refine Or.inr (Or.inl ?_)
    cases h with
    | published => exact ⟨m, hm, hsame⟩
    | scheduled runAt =>
      -- a member with the same text only gets a new score
      by_cases heq : m.1 = e'
      · exact ⟨(e', runAt), mem_zadd.mpr (Or.inl rfl), heq ▸ hsame⟩
      · exact ⟨m, mem_zadd.mpr (Or.inr ⟨hm, heq⟩), hsame⟩
  · refine Or.inr (Or.inr ?_)
    cases h <;> exact hdlq

theorem Added.keeps_self (h : q.Added e' q') (hsame : e.SameTask e')
    (hdelivered : q.delivered ≤ q.stream.length) : q'.Keeps e := by
  cases h with
  | published => exact Or.inl ⟨q.stream.length, e', hdelivered, by simp [publish], hsame⟩
  | scheduled runAt =>
    exact Or.inr (Or.inl ⟨(e', runAt), mem_zadd.mpr (Or.inl rfl), hsame⟩)

theorem Keeps.deadLetter {reason : String} (h : q.Keeps e) : (q.deadLetter e' reason).Keeps e := by
  rcases h with hstream | hsched | ⟨d, hd, hsame⟩
  · exact Or.inl hstream
  · exact Or.inr (Or.inl hsched)
  · exact Or.inr (Or.inr ⟨d, List.mem_append_left _ hd, hsame⟩)

theorem Keeps.promoteScheduled {now : ℚ} (h : q.Keeps e)
    (hdelivered : q.delivered ≤ q.stream.length) : (q.promoteScheduled now).Keeps e := by
  rw [promoteScheduled_eq]
  rcases h with ⟨k, x, hk, hx, hsame⟩ | ⟨m, hm, hsame⟩ | hdlq
  · exact Or.inl ⟨k, x, hk, Indexed.getElem?_of_grow (List.prefix_append _ _) hx, hsame⟩
  · -- due or not yet due; a tick moves at most a hundred members
    by_cases hdue : m.1 ∈ q.due now 100
    · -- the member moves to the end of the stream
      obtain ⟨j, hj⟩ := List.mem_iff_getElem?.mp hdue
      refine Or.inl ⟨q.stream.length + j, m.1, hdelivered.trans (Nat.le_add_right _ _), ?_, hsame⟩
      rw [List.getElem?_append_right (Nat.le_add_right _ _), Nat.add_sub_cancel_left, hj]
    · exact Or.inr (Or.inl ⟨m, List.mem_filter.mpr ⟨hm, by simpa using hdue⟩, hsame⟩)
  · exact Or.inr (Or.inr hdlq)

theorem promoteScheduled_stream_grow (q : QueueState) (now : ℚ) :
    q.stream <+: (q.promoteScheduled now).stream := by
  rw [promoteScheduled_eq]
  exact List.prefix_append _ _

end QueueState

namespace Sys

/-- A pending entry of the task of `e` that no job is about to acknowledge. -/
def Pends (s : Sys) (queue : String) (e : TaskEnvelope) : Prop :=
  ∃ p ∈ (s.redis.queues queue).pending,
    (∃ e', (s.redis.queues queue).stream[p.id]? = some e' ∧ e.SameTask e') ∧
      ∀ job ∈ s.jobs, job.queue = queue → job.msgId = p.id → ¬ job.pc.Finishing

/-- Every envelope on a queue is an attempt of one that a producer put there, and every
such envelope has a carrier. -/
structure CustodyInv (s : Sys) : Prop where
  requeues : s.requeues = []
  delivered : ∀ queue, (s.redis.queues queue).delivered ≤ (s.redis.queues queue).stream.length
  pending : ∀ queue, ∀ p ∈ (s.redis.queues queue).pending,
    p.id < (s.redis.queues queue).delivered
  origin : ∀ queue e', (s.redis.queues queue).Holds e' →
    ∃ e, (queue, e) ∈ s.enqueued ∧ e.SameTask e'
  /-- a job's entry has been delivered and is of the job's task -/
  jobs : ∀ job ∈ s.jobs, job.msgId < (s.redis.queues job.queue).delivered ∧
    ∃ e, (s.redis.queues job.queue).stream[job.msgId]? = some e ∧ e.SameTask job.envelope
  carried : ∀ queue e, (queue, e) ∈ s.enqueued →
    (s.redis.queues queue).Keeps e ∨ s.Pends queue e ∨ s.db.HasEffect e.effectKey

theorem custodyInv_init : CustodyInv init where
  requeues := rfl
  delivered := by simp [init, Redis.empty]
  pending := by simp [init, Redis.empty]
  origin := by simp [init, Redis.empty, QueueState.Holds]
  jobs := by simp [init]
  carried := by simp [init]

variable {s s' : Sys} {a : Action}

/-- Streams only grow, and so does the part that has been delivered. -/
theorem Moves.stream_grow (h : s.Moves a s') (queue : String) :
    (s.redis.queues queue).stream <+: (s'.redis.queues queue).stream ∧
      (s.redis.queues queue).delivered ≤ (s'.redis.queues queue).delivered := by
  have hmoves := h.queue_cases queue
  generalize s'.redis.queues queue = q' at hmoves
  cases hmoves with
  | enqueued hadded => exact ⟨hadded.stream_grow, hadded.delivered_eq.ge⟩
  | requeued => exact ⟨List.prefix_append _ _, le_rfl⟩
  | delivered => exact ⟨List.prefix_refl _, Nat.le_succ _⟩
  | promoted =>
    refine ⟨QueueState.promoteScheduled_stream_grow _ _, ?_⟩
    rw [QueueState.promoteScheduled_eq]
  | same | adopted | acked | retried | deadLettered => exact ⟨List.prefix_refl _, le_rfl⟩

/-- No more is delivered than there is. -/
theorem Moves.delivered_le (h : s.Moves a s') {queue : String}
    (hle : (s.redis.queues queue).delivered ≤ (s.redis.queues queue).stream.length) :
    (s'.redis.queues queue).delivered ≤ (s'.redis.queues queue).stream.length := by
  have hgrow := (h.stream_grow queue).1.length_le
  have hmoves := h.queue_cases queue
  generalize s'.redis.queues queue = q' at hmoves hgrow
  cases hmoves with
  | delivered hjob hjobs hmsg hentry =>
    obtain ⟨hlt, -⟩ := List.getElem?_eq_some_iff.mp hentry
    exact hlt
  | enqueued hadded => exact hadded.delivered_eq.le.trans (hle.trans hgrow)
  | promoted =>
    refine le_trans ?_ (hle.trans hgrow)
    rw [QueueState.promoteScheduled_eq]
  | same | requeued | adopted | acked | retried | deadLettered => exact hle.trans hgrow

/-- The entry that is handed out next is pending after its delivery: no older job has it, for it
had not been delivered. -/
theorem CustodyInv.handed_out (hinv : s.CustodyInv) {queue workerId : String} {job : Job}
    (hjob : job.Starting) (hjobs : s'.jobs = s.jobs ++ [job])
    (hq' : s'.redis.queues queue =
      { s.redis.queues queue with
        delivered := (s.redis.queues queue).delivered + 1
        pending := (s.redis.queues queue).pending ++
          [⟨(s.redis.queues queue).delivered, workerId⟩] })
    {e x : TaskEnvelope}
    (hx : (s.redis.queues queue).stream[(s.redis.queues queue).delivered]? = some x)
    (hsame : e.SameTask x) : s'.Pends queue e := by
  refine ⟨⟨(s.redis.queues queue).delivered, workerId⟩, ?_, ⟨x, ?_, hsame⟩, ?_⟩
  · rw [hq']
    exact List.mem_append_right _ (List.mem_singleton.mpr rfl)
  · rw [hq']
    exact hx
  · rw [hjobs]
    apply Indexed.forall_mem_append_singleton
    · intro other hother hqueue hid
      have hbelow := (hinv.jobs other hother).1
      rw [hqueue, hid] at hbelow
      exact absurd hbelow (lt_irrefl _)
    · exact fun _ _ => hjob.not_finishing

/-- What a queue keeps, it keeps until the entry is delivered; then it is pending. -/
theorem CustodyInv.keeps_step (hinv : s.CustodyInv) (h : s.Moves a s') {queue : String}
    {e : TaskEnvelope} (hkeeps : (s.redis.queues queue).Keeps e) :
    (s'.redis.queues queue).Keeps e ∨ s'.Pends queue e := by
  have hmoves := h.queue_cases queue
  generalize hq' : s'.redis.queues queue = q' at hmoves
  cases hmoves with
  | same => exact Or.inl hkeeps
  | enqueued hadded => exact Or.inl (hadded.keeps hkeeps)
  | requeued => exact Or.inl (QueueState.Added.published.keeps hkeeps)
  | adopted | acked => exact Or.inl hkeeps
  | retried => exact Or.inl ((QueueState.Added.scheduled _).keeps hkeeps)
  | deadLettered => exact Or.inl hkeeps.deadLetter
  | promoted => exact Or.inl (hkeeps.promoteScheduled (hinv.delivered queue))
  | @delivered workerId job hjob hjobs hmsg hentry =>
    rcases hkeeps with ⟨k, x, hk, hx, hsame⟩ | hrest
    · rcases Nat.eq_or_lt_of_le hk with rfl | hlt
      · exact Or.inr (hinv.handed_out hjob hjobs hq' hx hsame)
      · exact Or.inl (Or.inl ⟨k, x, hlt, hx, hsame⟩)
    · exact Or.inl (Or.inr hrest)

/-- A pending entry stays pending unless a job acknowledges it. -/
theorem Moves.pending_step (h : s.Moves a s') {queue : String} {p : Pending}
    (hp : p ∈ (s.redis.queues queue).pending)
    (hquiet : ∀ job ∈ s.jobs, job.queue = queue → job.msgId = p.id → ¬ job.pc.Acks) :
    ∃ p' ∈ (s'.redis.queues queue).pending, p'.id = p.id := by
  have hmoves := h.queue_cases queue
  generalize s'.redis.queues queue = q' at hmoves
  cases hmoves with
  | enqueued hadded => exact ⟨p, hadded.pending_eq ▸ hp, rfl⟩
  | delivered => exact ⟨p, List.mem_append_left _ hp, rfl⟩
  | adopted =>
    refine ⟨_, List.mem_map_of_mem hp, ?_⟩
    split <;> rfl
  | @acked job hjob hqueue hpc =>
    refine ⟨p, List.mem_filter.mpr ⟨hp, ?_⟩, rfl⟩
    -- this is another entry than the one that is acknowledged
    have hne : p.id ≠ job.msgId := by
      intro heq
      apply hquiet job hjob hqueue heq.symm
      rcases hpc with hpc | ⟨text, hpc⟩ <;> simp [hpc, Pc.Acks]
    simpa using hne
  | promoted =>
    rw [QueueState.promoteScheduled_eq]
    exact ⟨p, hp, rfl⟩
  | same | requeued | retried | deadLettered => exact ⟨p, hp, rfl⟩

/-- A pending entry is given up only when the next carrier is there. -/
theorem CustodyInv.pends_step (hinv : s.CustodyInv) (heffect : s.EffectInv) (h : s.Moves a s')
    {queue : String} {e : TaskEnvelope} (hpends : s.Pends queue e) :
    (s'.redis.queues queue).Keeps e ∨ s'.Pends queue e ∨ s'.db.HasEffect e.effectKey := by
  obtain ⟨p, hp, ⟨x, hx, hsame⟩, hquiet⟩ := hpends
  obtain ⟨p', hp', hid⟩ := h.pending_step hp fun job hjob hqueue hmsg hacks =>
    hquiet job hjob hqueue hmsg hacks.finishing
  have hx' : (s'.redis.queues queue).stream[p'.id]? = some x :=
    hid ▸ Indexed.getElem?_of_grow (h.stream_grow queue).1 hx
  -- a job for this entry works on the same task
  have htask : ∀ job ∈ s.jobs, job.queue = queue → job.msgId = p.id →
      e.SameTask job.envelope := by
    intro job hjob hqueue hmsg
    obtain ⟨-, y, hy, hyjob⟩ := hinv.jobs job hjob
    rw [hqueue, hmsg, hx] at hy
    obtain rfl := Option.some.inj hy
    exact hsame.trans hyjob
  by_cases hstill : ∀ job ∈ s'.jobs, job.queue = queue → job.msgId = p'.id → ¬ job.pc.Finishing
  · exact Or.inr (Or.inl ⟨p', hp', ⟨x, hx', hsame⟩, hstill⟩)
  · rcases h.worker_cases with
      ⟨i, job, job', stores', -, hjob, hmove, rfl⟩ | ⟨job, hnew, hjobs, -⟩ | ⟨hjobs, -⟩
    · have hmem := List.mem_of_getElem? hjob
      obtain ⟨hframe, hqueueEq, hmsgEq⟩ := hmove.frame
      -- the job that has moved is the one that now turns to acknowledging
      have hfin : job.queue = queue ∧ job.msgId = p.id ∧ job'.pc.Finishing := by
        by_contra hnot
        apply hstill
        apply Indexed.forall_mem_set
        · intro other hother hqueue hmsg
          exact hquiet other hother hqueue (hmsg.trans hid)
        · intro hqueue hmsg hfin
          exact hnot ⟨hqueueEq.symm.trans hqueue, hmsgEq.symm.trans (hmsg.trans hid), hfin⟩
      obtain ⟨hqueue, hmsg, hfin⟩ := hfin
      have hsameJob := htask job hmem hqueue hmsg
      rcases hmove.finishing_cases hfin with hold | hsucc | ⟨runAt, hredis⟩ | ⟨reason, hredis⟩
      · exact absurd hold (hquiet job hmem hqueue hmsg)
      · -- success: the effect is the last carrier
        refine Or.inr (Or.inr ?_)
        rw [hsameJob.effectKey_eq]
        exact (heffect.succeeds job hmem hsucc).mono hmove.effects_grow
      · left
        rw [setJob_redis, hredis, hqueue, Redis.modifyQueue_self]
        exact (QueueState.Added.scheduled runAt).keeps_self
          (hsameJob.trans (TaskEnvelope.sameTask_nextAttempt _)) (hinv.delivered queue)
      · left
        rw [setJob_redis, hredis, hqueue, Redis.modifyQueue_self]
        exact Or.inr (Or.inr ⟨_, List.mem_append_right _ (List.mem_singleton.mpr rfl), hsameJob⟩)
    · -- a job that starts does not acknowledge
      exfalso
      apply hstill
      rw [hjobs]
      apply Indexed.forall_mem_append_singleton
      · exact fun other hother hqueue hmsg => hquiet other hother hqueue (hmsg.trans hid)
      · exact fun _ _ => hnew.not_finishing
    · exfalso
      apply hstill
      rw [hjobs]
      exact fun other hother hqueue hmsg => hquiet other hother hqueue (hmsg.trans hid)

/-- Only what has been delivered is pending. -/
theorem Moves.pending_lt (h : s.Moves a s') {queue : String}
    (hlt : ∀ p ∈ (s.redis.queues queue).pending, p.id < (s.redis.queues queue).delivered) :
    ∀ p ∈ (s'.redis.queues queue).pending, p.id < (s'.redis.queues queue).delivered := by
  have hmoves := h.queue_cases queue
  generalize s'.redis.queues queue = q' at hmoves
  cases hmoves with
  | enqueued hadded =>
    rw [hadded.pending_eq, hadded.delivered_eq]
    exact hlt
  | delivered =>
    apply Indexed.forall_mem_append_singleton
    · exact fun p hp => (hlt p hp).trans (Nat.lt_succ_self _)
    · exact Nat.lt_succ_self _
  | adopted =>
    intro p hp
    obtain ⟨old, hold, rfl⟩ := List.mem_map.mp hp
    split <;> exact hlt old hold
  | acked => exact fun p hp => hlt p (List.mem_filter.mp hp).1
  | promoted =>
    rw [QueueState.promoteScheduled_eq]
    exact hlt
  | same | requeued | retried | deadLettered => exact hlt

/-- A job keeps its entry, and a new one is given one of its task. -/
theorem CustodyInv.jobs_step (hinv : s.CustodyInv) (h : s.Moves a s') :
    ∀ job ∈ s'.jobs, job.msgId < (s'.redis.queues job.queue).delivered ∧
      ∃ e, (s'.redis.queues job.queue).stream[job.msgId]? = some e ∧ e.SameTask job.envelope := by
  -- entries stay delivered and stay where they are
  have hgrow := h.stream_grow
  have hold : ∀ job ∈ s.jobs, job.msgId < (s'.redis.queues job.queue).delivered ∧
      ∃ e, (s'.redis.queues job.queue).stream[job.msgId]? = some e ∧
        e.SameTask job.envelope := by
    intro job hjob
    obtain ⟨hlt, e, he, hsame⟩ := hinv.jobs job hjob
    exact ⟨hlt.trans_le (hgrow job.queue).2, e,
      Indexed.getElem?_of_grow (hgrow job.queue).1 he, hsame⟩
  cases h with
  | @job _ i job job' stores' ha hjob hmove =>
    apply Indexed.forall_mem_set hold
    obtain ⟨hframe, hqueue, hmsg⟩ := hmove.frame
    obtain ⟨hlt, e, he, hsame⟩ := hold job (List.mem_of_getElem? hjob)
    rw [hqueue, hmsg]
    exact ⟨hlt, e, he, hsame.trans hframe⟩
  | delivered hentry =>
    apply Indexed.forall_mem_append_singleton hold
    simp only [spawn_redis, deliveredJob, Redis.modifyQueue_self]
    exact ⟨Nat.lt_succ_self _, _, hentry, .refl _⟩
  | @adopted workerId leaseMs queue msgId envelope hpending hentry =>
    apply Indexed.forall_mem_append_singleton hold
    obtain ⟨p, hp, rfl⟩ := hpending
    simp only [spawn_redis, deliveredJob, Redis.modifyQueue_self]
    exact ⟨hinv.pending queue p hp, envelope, hentry, .refl _⟩
  | post | posted | produced | requeued | requeue | cancelled | leases | promoted => exact hold

theorem CustodyInv.step (hinv : s.CustodyInv) (heffect : s.EffectInv)
    (ha : WithoutRequeue s a) (hstep : s.step a = some s') : s'.CustodyInv := by
  have h := moves_of_step hstep
  refine ⟨?_, fun queue => h.delivered_le (hinv.delivered queue),
    fun queue => h.pending_lt (hinv.pending queue), ?_, hinv.jobs_step h, ?_⟩
  · cases h with
    | requeued => exact absurd ha (by simp [WithoutRequeue, Action.isRequeue])
    | requeue ha hrequeue => simp [hinv.requeues] at hrequeue
    | job | delivered | adopted | post | posted | produced | cancelled | leases | promoted =>
      exact hinv.requeues
  · intro queue e' hholds
    have hkeep : (∃ e, (queue, e) ∈ s.enqueued ∧ e.SameTask e') →
        ∃ e, (queue, e) ∈ s'.enqueued ∧ e.SameTask e' := by
      rintro ⟨e, he, hsame⟩
      exact ⟨e, h.enqueued_grow.subset he, hsame⟩
    rcases h.holds_cases hholds with hold | henqueued | ⟨r, hr, -⟩ | ⟨job, hjob, hqueue, -, hfrom⟩
    · exact hkeep (hinv.origin queue e' hold)
    · exact ⟨e', by simp [henqueued], .refl e'⟩
    · -- there are no requeue requests in such a run
      simp [hinv.requeues] at hr
    · -- a retry or a dead letter: the job's own entry goes back to a producer
      obtain ⟨-, x, hx, hxjob⟩ := hinv.jobs job hjob
      rw [hqueue] at hx
      obtain ⟨e, he, hsame⟩ := hinv.origin queue x (Or.inl (List.mem_of_getElem? hx))
      refine hkeep ⟨e, he, (hsame.trans hxjob).trans ?_⟩
      rcases hfrom with rfl | ⟨rfl, -⟩
      · exact .refl _
      · exact TaskEnvelope.sameTask_nextAttempt _
  · intro queue e he
    rcases h.enqueued_cases he with hold | hadded
    · rcases hinv.carried queue e hold with hkeeps | hpends | hdone
      · rcases hinv.keeps_step h hkeeps with hkeeps | hpends
        · exact Or.inl hkeeps
        · exact Or.inr (Or.inl hpends)
      · exact hinv.pends_step heffect h hpends
      · exact Or.inr (Or.inr (hdone.mono (effects_grow_of_step hstep)))
    · exact Or.inl (hadded.keeps_self (.refl e) (hinv.delivered queue))

/-- In runs without requeues nothing is dropped. -/
theorem custodyInv_of_reaches (h : Transition.ReachesWhen step WithoutRequeue init s) :
    s.CustodyInv := by
  have hboth : s.CustodyInv ∧ s.EffectInv := by
    apply h.invariant (I := fun s => s.CustodyInv ∧ s.EffectInv) ?_
      ⟨custodyInv_init, effectInv_init⟩
    rintro s a s' ⟨hinv, heffect⟩ ha hstep
    exact ⟨hinv.step heffect ha hstep, heffect.step hstep⟩
  exact hboth.1

/-- The message is on the queue: undelivered, pending, scheduled or dead-lettered. -/
def CarriedBy (q : QueueState) (e : TaskEnvelope) : Prop :=
  (∃ k, q.delivered ≤ k ∧ q.stream[k]? = some e) ∨
    (∃ p ∈ q.pending, q.stream[p.id]? = some e) ∨
    (∃ score, (e, score) ∈ q.sched) ∨ ∃ reason, (e, reason) ∈ q.dlq

/-- **No accepted task is lost by the workers.** Take any run of any number of workers
without requeues, with any crashes and any failing calls. For every envelope that was
once published or scheduled:

* an attempt of it is undelivered, pending, scheduled or dead-lettered on its queue, or
  an effect is committed under its key;
* every envelope of its task on any queue differs from it in the attempt at most. -/
theorem no_task_lost (h : Transition.ReachesWhen step WithoutRequeue init s) :
    ∀ queue e, (queue, e) ∈ s.enqueued →
      ((∃ e', CarriedBy (s.redis.queues queue) e' ∧ e.SameTask e') ∨
        s.db.HasEffect e.effectKey) ∧
      ∀ queue' e', (s.redis.queues queue').Holds e' → e'.taskId = e.taskId →
        e.SameTask e' := by
  have hinv := custodyInv_of_reaches h
  have hbooks : s.EnqueueInv := Reachable.enqueueInv h.reaches
  intro queue e he
  constructor
  · rcases hinv.carried queue e he with hkeeps | ⟨p, hp, ⟨e', he', hsame⟩, -⟩ | hdone
    · left
      rcases hkeeps with ⟨k, e', hk, he', hsame⟩ | ⟨m, hm, hsame⟩ | ⟨d, hd, hsame⟩
      · exact ⟨e', Or.inl ⟨k, hk, he'⟩, hsame⟩
      · exact ⟨m.1, Or.inr (Or.inr (Or.inl ⟨m.2, hm⟩)), hsame⟩
      · exact ⟨d.1, Or.inr (Or.inr (Or.inr ⟨d.2, hd⟩)), hsame⟩
    · exact Or.inl ⟨e', Or.inr (Or.inl ⟨p, hp, he'⟩), hsame⟩
    · exact Or.inr hdone
  · -- both envelopes go back to the one that was enqueued under this id
    intro queue' e' hholds hid
    obtain ⟨e₀, he₀, hsame⟩ := hinv.origin queue' e' hholds
    have hids : e₀.taskId = e.taskId := hsame.taskId_eq.trans hid
    have heq : (queue', e₀) = (queue, e) :=
      List.inj_on_of_nodup_map hbooks.nodup he₀ he hids
    rw [← (Prod.mk.inj heq).2]
    exact hsame

/-- The theorem at a run in which the first worker dies after scheduling the retry and
before acknowledging, so that the message is both pending and scheduled. -/
theorem no_task_lost_crash : ∃ (s : Sys) (e : TaskEnvelope), ("q", e) ∈ s.enqueued ∧
    (∃ e', CarriedBy (s.redis.queues "q") e' ∧ e.SameTask e') := by
  obtain ⟨s, hreach, hcheck⟩ := Transition.exists_reachesWhen_of_check step WithoutRequeue init
    (accept 0 { queue := "q", taskName := "t", payload := .null } ⟨1⟩ ++
      [.deliver "a" 100 "q"] ++ proceeds 0 3 ++ [.handler 0 (.raised "ValueError" "boom")] ++
      proceeds 0 3 ++ [.jobStep 0 .crash])
    (fun s => s.enqueued ≠ [] ∧ s.db.effects = [] ∧ s.enqueued.all fun x => x.1 = "q")
    (by decide +kernel)
  obtain ⟨hsome, heffects, hqueue⟩ := hcheck
  obtain ⟨x, hx⟩ := List.exists_mem_of_ne_nil _ hsome
  have hxq : x.1 = "q" := by simpa using List.all_eq_true.mp hqueue x hx
  have hmem : ("q", x.2) ∈ s.enqueued := hxq ▸ hx
  refine ⟨s, x.2, hmem, ?_⟩
  rcases (no_task_lost hreach "q" x.2 hmem).1 with hcarried | ⟨row, hrow, -⟩
  · exact hcarried
  · simp [heffects] at hrow

end Sys

end Dtq
