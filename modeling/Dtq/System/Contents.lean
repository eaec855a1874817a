import Dtq.System.Intake

/-!
# What is executed is what was asked for

An envelope is copied again and again: onto the stream and into the schedule, by the reclaim
loop with another attempt, by a retry, into the dead-letter queue, and by a requeue request
that builds a new one from the task's row. The handler is looked up by the name in the copy and
is given the payload in the copy, so all of them have to agree with the request.

Of every copy the invariant says which envelope or which row it was made from. Rows keep what
the request said, and the copies differ in their attempt only.

## Main results

* `Sys.Moves.carries_cases` — where a copy comes from
* `Sys.executes_as_asked` — every copy of an envelope says what the request for its task said,
  and is on the queue it names
-/

set_option autoImplicit false

namespace Dtq

theorem requeueEnvelope_core (queue : String) (row : TaskRow) (now : ℚ) :
    requeueEnvelope queue row.core now = requeueEnvelope queue row now := rfl

/-- A row that keeps what a request said gives back the request's envelope, without its dedup key
and for the queue of the requeue. -/
theorem requeueEnvelope_of_core {queue : String} {row : TaskRow} {req : CreateTaskRequest}
    {taskId : Uuid} (hcore : row.core = (req.row taskId).core) (now : ℚ) :
    requeueEnvelope queue row now =
      { req.envelope taskId now with queue := queue, dedupKey := none } := by
  rw [← requeueEnvelope_core, hcore]
  rfl

theorem TaskEnvelope.SameTask.queue_eq {e e' : TaskEnvelope} (h : e.SameTask e') :
    e.queue = e'.queue := by
  unfold SameTask at h
  simpa using congrArg TaskEnvelope.queue h

/-- A requeue request is about one queue. -/
theorem Requeue.Moves.queue_eq {requeue requeue' : Requeue} {stores stores' : Stores}
    {locks : Locks} (h : requeue.Moves stores locks stores' requeue') :
    requeue'.queue = requeue.queue := by
  cases h with
  | proceeds h => cases h <;> rfl
  | failed => rfl

namespace Sys

/-- A copy of the envelope belongs to the queue: it is in the keys of the queue, in the hands of a
job, or about to be published by a requeue request. -/
inductive Carries (s : Sys) (queue : String) (e : TaskEnvelope) : Prop
  | held (hholds : (s.redis.queues queue).Holds e)
  | worked {job : Job} (hjob : job ∈ s.jobs) (hqueue : job.queue = queue) (he : job.envelope = e)
  | requeued {requeue : Requeue} {rest : List Uuid} (hrequeue : requeue ∈ s.requeues)
      (hqueue : requeue.queue = queue) (hpc : requeue.pc = .publish e rest)

/-- What a copy was made from: an envelope that a producer has put on the queue, or the row of a
task that was requeued. -/
def Stems (s : Sys) (queue : String) (e : TaskEnvelope) : Prop :=
  (∃ e₀, (queue, e₀) ∈ s.enqueued ∧ e₀.SameTask e) ∨
    ∃ row ∈ s.db.tasks, ∃ now, (requeueEnvelope queue row now).SameTask e

variable {s s' : Sys} {a : Action} {queue : String} {e e' : TaskEnvelope}

theorem Stems.of_sameTask (h : s.Stems queue e) (hsame : e.SameTask e') : s.Stems queue e' := by
  rcases h with ⟨e₀, he₀, hsame₀⟩ | ⟨row, hrow, now, hsame₀⟩
  · exact Or.inl ⟨e₀, he₀, hsame₀.trans hsame⟩
  · exact Or.inr ⟨row, hrow, now, hsame₀.trans hsame⟩

/-- Producers' envelopes stay on record, and rows keep the columns that a requeue reads. -/
theorem Moves.stems (h : s.Moves a s') (hstems : s.Stems queue e) : s'.Stems queue e := by
  rcases hstems with ⟨e₀, he₀, hsame⟩ | ⟨row, hrow, now, hsame⟩
  · exact Or.inl ⟨e₀, h.enqueued_grow.subset he₀, hsame⟩
  · right
    rcases h.rows_cases with hcore | ⟨i, reply, post, -, -, -, -, happend⟩
    · have hmem : row.core ∈ s'.db.tasks.map TaskRow.core := hcore ▸ List.mem_map_of_mem hrow
      obtain ⟨row', hrow', heq⟩ := List.mem_map.mp hmem
      refine ⟨row', hrow', now, ?_⟩
      rw [← requeueEnvelope_core, heq, requeueEnvelope_core]
      exact hsame
    · exact ⟨row, happend ▸ List.mem_append_left _ hrow, now, hsame⟩

/-- A copy in the hands of a job was there before, or has just been read from the stream. -/
theorem Moves.worked_cases (h : s.Moves a s') {job' : Job} (hjob' : job' ∈ s'.jobs) :
    ∃ e, s.Carries job'.queue e ∧ e.SameTask job'.envelope := by
  have hold : ∀ job ∈ s.jobs, ∃ e, s.Carries job.queue e ∧ e.SameTask job.envelope :=
    fun job hjob => ⟨job.envelope, .worked hjob rfl rfl, .refl _⟩
  cases h with
  | @job _ i job job₁ stores' ha hjob hmove =>
    apply Indexed.forall_mem_set (P := fun job' : Job =>
      ∃ e, s.Carries job'.queue e ∧ e.SameTask job'.envelope) hold _ job' hjob'
    obtain ⟨hsame, hqueue, -⟩ := hmove.frame
    exact ⟨job.envelope, .worked (List.mem_of_getElem? hjob) hqueue.symm rfl, hsame⟩
  | delivered hentry =>
    refine Indexed.forall_mem_append_singleton hold ?_ job' hjob'
    exact ⟨_, .held (Or.inl (List.mem_of_getElem? hentry)), .refl _⟩
  | adopted hpending hentry =>
    refine Indexed.forall_mem_append_singleton hold ?_ job' hjob'
    exact ⟨_, .held (Or.inl (List.mem_of_getElem? hentry)), .refl _⟩
  | post | posted | produced | requeued | requeue | cancelled | leases | promoted =>
    exact hold job' hjob'

/-- A requeue request that is about to publish was so before, or has just read the task's row. -/
theorem Moves.requeued_cases (h : s.Moves a s') {requeue' : Requeue} {rest : List Uuid}
    (hrequeue' : requeue' ∈ s'.requeues) (hpc' : requeue'.pc = .publish e rest) :
    s.Carries requeue'.queue e ∨
      ∃ row ∈ s.db.tasks, ∃ now, e = requeueEnvelope requeue'.queue row now := by
  have hold : ∀ requeue ∈ s.requeues, requeue.pc = .publish e rest →
      s.Carries requeue.queue e ∨
        ∃ row ∈ s.db.tasks, ∃ now, e = requeueEnvelope requeue.queue row now :=
    fun requeue hrequeue hpc => Or.inl (.requeued hrequeue rfl hpc)
  cases h with
  | requeued =>
    exact Indexed.forall_mem_append_singleton hold (by simp) requeue' hrequeue' hpc'
  | @requeue i reply requeue requeue₁ stores' ha hrequeue hmove =>
    refine Indexed.forall_mem_set hold ?_ requeue' hrequeue' hpc'
    intro hpc
    obtain ⟨taskId, row, now, hfound, rfl, -⟩ := hmove.publish_cases hpc
    rw [hmove.queue_eq]
    exact Or.inr ⟨row, List.mem_of_find?_eq_some hfound, now, rfl⟩
  | job | delivered | adopted | post | posted | produced | cancelled | leases | promoted =>
    exact hold requeue' hrequeue' hpc'

/-- Where a copy comes from: it is a copy of one that was there, a producer has just put it on the
queue, or a requeue request has just built it from a row. -/
theorem Moves.carries_cases (h : s.Moves a s') (hcarries : s'.Carries queue e) :
    (∃ e₀, s.Carries queue e₀ ∧ e₀.SameTask e) ∨
      s'.enqueued = s.enqueued ++ [(queue, e)] ∨
      ∃ row ∈ s.db.tasks, ∃ now, e = requeueEnvelope queue row now := by
  cases hcarries with
  | held hholds =>
    rcases h.holds_cases hholds with hold | hnew | ⟨requeue, hrequeue, hqueue, rest, hpc⟩ |
      ⟨job, hjob, hqueue, -, rfl | ⟨rfl, -⟩⟩
    · exact Or.inl ⟨e, .held hold, .refl e⟩
    · exact Or.inr (Or.inl hnew)
    · exact Or.inl ⟨e, .requeued hrequeue hqueue hpc, .refl e⟩
    · exact Or.inl ⟨job.envelope, .worked hjob hqueue rfl, .refl _⟩
    · -- the retry of a job's envelope
      exact Or.inl ⟨job.envelope, .worked hjob hqueue rfl, TaskEnvelope.sameTask_nextAttempt _⟩
  | worked hjob hqueue he =>
    subst hqueue he
    exact Or.inl (h.worked_cases hjob)
  | requeued hrequeue hqueue hpc =>
    subst hqueue
    rcases h.requeued_cases hrequeue hpc with hold | hrow
    · exact Or.inl ⟨e, hold, .refl e⟩
    · exact Or.inr (Or.inr hrow)

/-- Every copy was made from an envelope on record or from a row. -/
theorem Reachable.stems (h : s.Reachable) : ∀ queue e, s.Carries queue e → s.Stems queue e := by
  apply Transition.Reaches.invariant
    (I := fun s : Sys => ∀ queue e, s.Carries queue e → s.Stems queue e) ?_ h
  · rintro queue e (hholds | ⟨hjob, -, -⟩ | ⟨hrequeue, -, -⟩)
    · simp [init, Redis.empty, QueueState.Holds] at hholds
    · simp [init] at hjob
    · simp [init] at hrequeue
  · intro s a s' hinv hstep queue e hcarries
    have hmoves := moves_of_step hstep
    rcases hmoves.carries_cases hcarries with ⟨e₀, he₀, hsame⟩ | hnew | ⟨row, hrow, now, rfl⟩
    · exact (hmoves.stems (hinv queue e₀ he₀)).of_sameTask hsame
    · exact Or.inl ⟨e, hnew ▸ List.mem_append_right _ (List.mem_singleton.mpr rfl), .refl e⟩
    · exact hmoves.stems (Or.inr ⟨row, hrow, now, .refl _⟩)

/-- A row with the id of a request is the request's. -/
theorem EnqueueInv.row_of_post (h : s.EnqueueInv) {post : Post} {row : TaskRow}
    (hpost : post ∈ s.posts) (hrow : row ∈ s.db.tasks) (hid : row.id = post.taskId) :
    row.core = (post.req.row post.taskId).core := by
  obtain ⟨owner, howner, -, hownerId, hcore⟩ := h.exists_post hrow
  obtain ⟨i, hi⟩ := List.mem_iff_getElem?.mp howner
  obtain ⟨j, hj⟩ := List.mem_iff_getElem?.mp hpost
  by_cases hij : i = j
  · subst hij
    obtain rfl := Option.mem_unique hi hj
    exact hcore
  · -- ids are drawn once
    exact absurd (hownerId.trans hid) (h.distinct hi hj hij)

/-- A request has committed its row before its envelope is on the broker. -/
theorem Reachable.hasTask_of_sent (h : s.Reachable) :
    ∀ x ∈ s.enqueued, (∃ post ∈ s.posts, post.taskId = x.2.taskId) → s.HasTask x.2.taskId := by
  apply Transition.ReachesWhen.invariant_along (I := fun s : Sys => ∀ x ∈ s.enqueued,
    (∃ post ∈ s.posts, post.taskId = x.2.taskId) → s.HasTask x.2.taskId) h (by simp [init])
  intro s a s' hrun hinv _ hstep
  have hreach : s.Reachable := hrun
  have hmoves := moves_of_step hstep
  -- a task that has a request after the step had it before, unless its id was fresh
  have hold : ∀ x ∈ s.enqueued, (∃ post ∈ s'.posts, post.taskId = x.2.taskId) →
      s'.HasTask x.2.taskId := by
    rintro x hx ⟨post', hpost', hid⟩
    rcases hmoves.posts_cases hpost' with ⟨post, hpost, -, hsame⟩ | ⟨hfresh, -⟩
    · exact hmoves.hasTask (hinv x hx ⟨post, hpost, hsame.trans hid⟩)
    · exact absurd hid.symm (hfresh.2 x hx)
  rcases hmoves.control_cases with
    ⟨i, reply, post, out, -, -, hpost, hmove, rfl⟩ | ⟨req, taskId, -, hfresh, rfl⟩ |
      ⟨queue, envelope, hfresh, hposts, henqueued, -⟩ | ⟨-, henqueued, -⟩
  · obtain ⟨-, hnone⟩ | ⟨e, hsent, hfrom, -⟩ := hmove.sent_cases
    · rw [setPost_enqueued, hnone]
      simpa using hold
    · rw [setPost_enqueued, hsent]
      apply Indexed.forall_mem_append_singleton hold
      intro _
      -- the request is between its `COMMIT` and its end
      have hcommitted : ¬ post.Uncommitted := by
        rcases hfrom with ⟨now, hpc, -⟩ | hpc <;> simp [Post.Uncommitted, hpc]
      have htask := hreach.hasTask_of_committed post (List.mem_of_getElem? hpost) hcommitted
        hmove.not_ended
      obtain ⟨now, rfl⟩ := hreach.enqueueInv.sent_envelope hpost hmove hsent
      exact hmoves.hasTask htask
  · exact hold
  · rw [henqueued]
    apply Indexed.forall_mem_append_singleton hold
    rw [hposts]
    rintro ⟨post, hpost, hid⟩
    exact absurd hid (hfresh.1 post hpost)
  · rw [henqueued]
    exact hold

/-- **Execution as asked.** Every copy of an envelope, wherever it is and whoever works on it:

* if its task was created by a request, then up to the attempt it is the envelope that the
  request built, or the same without its dedup key and for another queue, which a requeue
  request has made; in either case it names the queue it is on, and the row of the task is
  there and says the same;
* otherwise it is up to the attempt the envelope that another producer has put on that queue. -/
theorem executes_as_asked (h : s.Reachable) (hcarries : s.Carries queue e) :
    (∀ post ∈ s.posts, post.taskId = e.taskId →
      e.queue = queue ∧
      (∃ now, (post.req.envelope post.taskId now).SameTask e ∨ TaskEnvelope.SameTask
        { post.req.envelope post.taskId now with queue := queue, dedupKey := none } e) ∧
      ∃ row ∈ s.db.tasks, row.core = (post.req.row post.taskId).core) ∧
    ((∀ post ∈ s.posts, post.taskId ≠ e.taskId) →
      ∃ e₀, (queue, e₀) ∈ s.enqueued ∧ e₀.SameTask e) := by
  have hbooks := h.enqueueInv
  have hstems := h.stems queue e hcarries
  constructor
  · intro post hpost hid
    rcases hstems with ⟨e₀, he₀, hsame⟩ | ⟨row, hrow, now, hsame⟩
    · have hid₀ : post.taskId = e₀.taskId := hid.trans hsame.taskId_eq.symm
      obtain ⟨hqueue, now, rfl⟩ := hbooks.sent _ he₀ post hpost hid₀
      obtain ⟨row, hrow, hrowId⟩ := h.hasTask_of_sent _ he₀ ⟨post, hpost, hid₀⟩
      refine ⟨hsame.queue_eq.symm.trans hqueue.symm, ⟨now, Or.inl hsame⟩, row, hrow, ?_⟩
      exact hbooks.row_of_post hpost hrow hrowId
    · have hcore := hbooks.row_of_post hpost hrow (hsame.taskId_eq.trans hid.symm)
      refine ⟨hsame.queue_eq.symm, ⟨now, Or.inr ?_⟩, row, hrow, hcore⟩
      rwa [requeueEnvelope_of_core hcore] at hsame
  · intro hother
    rcases hstems with hsent | ⟨row, hrow, now, hsame⟩
    · exact hsent
    · -- a row belongs to a request
      obtain ⟨post, hpost, -, hid, -⟩ := hbooks.exists_post hrow
      exact absurd (hid.trans hsame.taskId_eq) (hother post hpost)

/-- A task with the payload `5` fails on queue `q`, is dead-lettered, requeued to queue `r` and
delivered there. -/
def failedAndRequeued : List Action :=
  let req : CreateTaskRequest :=
    { queue := "q"
      taskName := "t"
      payload := .num 5
      dedupKey := some "k"
      maxAttempts := 1 }
  accept 0 req ⟨1⟩ ++
    [.deliver "a" 100 "q"] ++ proceeds 0 3 ++ [.handler 0 (.raised "ValueError" "ValueError")] ++
    proceeds 0 5 ++ [.requeue "r" [⟨1⟩], .requeueStep 0 (.ok 0 0), .requeueStep 0 (.ok 0 0),
      .deliver "b" 100 "r"]

/-- The theorem at a requeue: the second execution has the payload of the request. -/
theorem executes_as_asked_requeued : ∃ (s : Sys) (job : Job), job ∈ s.jobs ∧ job.queue = "r" ∧
    job.envelope.payload = .num 5 ∧ job.envelope.queue = "r" := by
  obtain ⟨s, hrun, ⟨job, hjob, hqueue, hpayload⟩, hpost⟩ :=
    Transition.exists_run_of_check step init failedAndRequeued
      (fun s => (∃ job ∈ s.jobs, job.queue = "r" ∧ job.envelope.payload = .num 5) ∧
        ∀ job ∈ s.jobs, ∃ post ∈ s.posts, post.taskId = job.envelope.taskId)
      (by decide +kernel)
  have hreach : s.Reachable := .of_run hrun
  obtain ⟨post, hmem, hid⟩ := hpost job hjob
  obtain ⟨hasked, -⟩ := executes_as_asked hreach (.worked hjob hqueue rfl)
  exact ⟨s, job, hjob, hqueue, hpayload, (hasked post hmem hid).1⟩

end Sys

end Dtq
