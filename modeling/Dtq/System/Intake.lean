import Dtq.System.Custody
import Dtq.System.TaskStates

/-!
# Half-done requests

`create_task` commits the task's row and only then talks to the broker. If it ends in
between, the row is there and no message drives it; a later request with the same dedup
key finds the row and publishes nothing. Some of the calls in between may fail, and one
fails by itself: the comparison of a `run_at` without a timezone with the current time.

`Post.strands` says which answers to which calls have this outcome. A run without them
leaves no row behind, and each of them leaves one behind for good.

## Main results

* `Sys.Stranded` — a row without a message, in every run without a requeue
* `Sys.enqueue_complete_unless_stranded` — requests are complete unless an answer strands
  them
* `Sys.half_done_request` — a request that is stranded without any fault
-/

set_option autoImplicit false

namespace Dtq

namespace CreateTaskRequest

variable (req : CreateTaskRequest)

/-- `run_at` is missing or has a timezone, so that the comparison does not raise. -/
def comparable : Bool :=
  match req.runAt with
  | some runAt => runAt.timestamp.isSome
  | none => true

/-- `req.run_at and req.run_at > datetime.now(timezone.utc)`. -/
def later (now : ℚ) : Bool :=
  match req.runAt with
  | some runAt => runAt.gtNow now = some true
  | none => false

end CreateTaskRequest

namespace Post

variable {post : Post} {stores : Stores} {waiting : List TaskRow} {out : Outcome} {reply : Reply}

/-- The answer ends the request after its row is committed and before its envelope is on
the broker: the `COMMIT` reports a failure although it took effect, the comparison of
`run_at` raises, the process dies or a call raises before the hand-over. An exception after
the hand-over took effect does no harm. -/
def strands (post : Post) (reply : Reply) : Bool :=
  match post.pc, reply with
  | .commit, .raise true _ _ _ => true
  | .dispatch, .ok _ _ => !post.req.comparable
  | .dispatch, .raise true now _ _ => !post.req.later now
  | .dispatch, .raise false _ _ _ | .dispatch, .crash => true
  | .publish _, .raise false _ _ _ | .publish _, .crash => true
  | _, _ => false

/-- The three ways in which a request goes on from its committed row. -/
theorem proceed_of_dispatch {now : ℚ} (hpc : post.pc = .dispatch)
    (h : post.proceed stores waiting now = some out) :
    out.stores.db = stores.db ∧
      (post.req.later now = true ∧ post.req.comparable = true ∧ out.sent.isSome = true ∨
        post.req.later now = false ∧ out.sent = none ∧
          (out.post.Ended ↔ post.req.comparable = false)) := by
  simp only [proceed, hpc] at h
  cases hrunAt : post.req.runAt with
  | none =>
    rw [hrunAt] at h
    obtain rfl := Option.some.inj h
    refine ⟨rfl, Or.inr ⟨by simp [CreateTaskRequest.later, hrunAt], rfl, ?_⟩⟩
    simp [Ended, goto, CreateTaskRequest.comparable, hrunAt]
  | some runAt =>
    cases hat : runAt.timestamp with
    -- `run_at` without an offset: the comparison with the aware `now` raises `TypeError`
    | none =>
      simp only [hrunAt, DateTime.gtNow, hat, Option.map_none] at h
      obtain rfl := Option.some.inj h
      refine ⟨rfl, Or.inr ⟨?_, rfl, ?_⟩⟩
      · simp [CreateTaskRequest.later, hrunAt, DateTime.gtNow, hat]
      · simp [Ended, goto, CreateTaskRequest.comparable, hrunAt, hat]
    | some at_ =>
      have hcomparable : post.req.comparable = true := by
        simp [CreateTaskRequest.comparable, hrunAt, hat]
      have hlater : post.req.later now = decide (now < at_) := by
        simp [CreateTaskRequest.later, hrunAt, DateTime.gtNow, hat]
      simp only [hrunAt, DateTime.gtNow, hat, Option.map_some] at h
      cases hlt : decide (now < at_) with
      | true =>
        rw [hlt] at h
        obtain rfl := Option.some.inj h
        exact ⟨rfl, Or.inl ⟨hlater.trans hlt, hcomparable, rfl⟩⟩
      | false =>
        rw [hlt] at h
        obtain rfl := Option.some.inj h
        refine ⟨rfl, Or.inr ⟨hlater.trans hlt, rfl, ?_⟩⟩
        simp [Ended, goto, hcomparable]

/-- A stranding answer ends the request with its row committed and nothing sent. -/
theorem answer_of_strands (h : post.answer stores waiting reply = some out)
    (hstrands : post.strands reply = true) :
    out.post.Ended ∧ out.sent = none ∧
      (¬ post.Uncommitted ∨ out.stores.db = stores.db.insertTask (post.req.row post.taskId)) := by
  cases hreply : reply.applied with
  | false =>
    obtain ⟨-, rfl⟩ := answer_of_not_applied h hreply
    -- before the `COMMIT` such an answer does no harm, so it came after it
    refine ⟨⟨none, rfl⟩, rfl, Or.inl fun hun => ?_⟩
    cases hpc : post.pc <;> simp [Uncommitted, hpc] at hun <;>
      cases reply <;> simp_all [strands, Reply.applied]
  | true =>
    obtain ⟨now, out', hout', hcases⟩ := answer_of_applied h hreply
    cases hpc : post.pc with
    | commit =>
      simp only [proceed, hpc] at hout'
      obtain rfl := Option.some.inj hout'
      rcases hcases with ⟨⟨draw, rfl⟩, -⟩ | ⟨-, rfl⟩
      · simp [strands, hpc] at hstrands
      · exact ⟨⟨none, rfl⟩, rfl, Or.inr rfl⟩
    | dispatch =>
      have hcommitted : ¬ post.Uncommitted := by simp [Uncommitted, hpc]
      obtain ⟨-, ⟨hlater, hcomparable, -⟩ | ⟨-, hnone, hended⟩⟩ := proceed_of_dispatch hpc hout'
      · rcases hcases with ⟨⟨draw, rfl⟩, -⟩ | ⟨⟨draw, message, rfl⟩, -⟩ <;>
          simp [strands, hpc, hlater, hcomparable] at hstrands
      · rcases hcases with ⟨⟨draw, rfl⟩, rfl⟩ | ⟨-, rfl⟩
        · refine ⟨hended.mpr ?_, hnone, Or.inl hcommitted⟩
          simpa [strands, hpc] using hstrands
        · exact ⟨⟨none, rfl⟩, hnone, Or.inl hcommitted⟩
    | publish =>
      rcases hcases with ⟨⟨draw, rfl⟩, -⟩ | ⟨⟨draw, message, rfl⟩, -⟩ <;>
        simp [strands, hpc] at hstrands
    | _ => simp [strands, hpc] at hstrands

/-- A request that ends otherwise has sent its envelope or committed nothing. -/
theorem answer_of_not_strands (h : post.answer stores waiting reply = some out)
    (hstrands : post.strands reply = false) (hended : out.post.Ended) :
    out.sent.isSome = true ∨ post.Uncommitted ∧ out.stores.db = stores.db := by
  cases hreply : reply.applied with
  | false =>
    obtain ⟨hactive, rfl⟩ := answer_of_not_applied h hreply
    refine Or.inr ⟨?_, rfl⟩
    -- after the `COMMIT` it would have been a stranding answer
    cases hpc : post.pc with
    | dispatch | publish => cases reply <;> simp_all [strands, Reply.applied]
    | ended response => exact absurd ⟨response, hpc⟩ hactive
    | _ => simp [Uncommitted, hpc]
  | true =>
    obtain ⟨now, out', hout', hcases⟩ := answer_of_applied h hreply
    have hstores : out.stores = out'.stores ∧ out.sent = out'.sent := by
      rcases hcases with ⟨-, rfl⟩ | ⟨-, rfl⟩ <;> exact ⟨rfl, rfl⟩
    rw [hstores.1, hstores.2]
    cases hpc : post.pc with
    | dispatch =>
      obtain ⟨-, ⟨-, -, hsome⟩ | ⟨hlater, -, hiff⟩⟩ := proceed_of_dispatch hpc hout'
      · exact Or.inl hsome
      · rcases hcases with ⟨⟨draw, rfl⟩, rfl⟩ | ⟨⟨draw, message, rfl⟩, -⟩
        · rw [hiff] at hended
          simp [strands, hpc, hended] at hstrands
        · simp [strands, hpc, hlater] at hstrands
    | publish =>
      simp only [proceed, hpc] at hout'
      obtain rfl := Option.some.inj hout'
      exact Or.inl rfl
    | commit =>
      simp only [proceed, hpc] at hout'
      obtain rfl := Option.some.inj hout'
      rcases hcases with ⟨-, rfl⟩ | ⟨⟨draw, message, rfl⟩, -⟩
      · simp [Ended, goto] at hended
      · simp [strands, hpc] at hstrands
    | ended => simp [proceed, hpc] at hout'
    | _ =>
      -- the tables change at the `COMMIT` only
      refine Or.inr ⟨by simp [Uncommitted, hpc], ?_⟩
      rcases (Moves.proceeds (proceeds_of_proceed hout')).db_cases with hdb | ⟨hcommit, -⟩
      · exact hdb
      · simp [hpc] at hcommit

end Post

namespace QueueState

/-- The envelope is on the stream, where it stays, or in the schedule. -/
def Filed (q : QueueState) (e : TaskEnvelope) : Prop := e ∈ q.stream ∨ ∃ m ∈ q.sched, m.1 = e

variable {q q' : QueueState} {e e' : TaskEnvelope}

theorem Added.filed_self (h : q.Added e q') : q'.Filed e := by
  cases h with
  | published => exact Or.inl (List.mem_append_right _ (List.mem_singleton.mpr rfl))
  | scheduled runAt => exact Or.inr ⟨(e, runAt), mem_zadd.mpr (Or.inl rfl), rfl⟩

theorem Added.filed (h : q.Added e' q') (hfiled : q.Filed e) : q'.Filed e := by
  rcases hfiled with hstream | ⟨m, hm, rfl⟩
  · exact Or.inl (h.stream_grow.subset hstream)
  · cases h with
    | published => exact Or.inr ⟨m, hm, rfl⟩
    | scheduled runAt =>
      -- scheduling the same envelope again only changes its score
      by_cases heq : m.1 = e'
      · exact Or.inr ⟨(e', runAt), mem_zadd.mpr (Or.inl rfl), heq.symm⟩
      · exact Or.inr ⟨m, mem_zadd.mpr (Or.inr ⟨hm, heq⟩), rfl⟩

theorem Filed.promoteScheduled {now : ℚ} (h : q.Filed e) : (q.promoteScheduled now).Filed e := by
  rw [promoteScheduled_eq]
  rcases h with hstream | ⟨m, hm, rfl⟩
  · exact Or.inl (List.mem_append_left _ hstream)
  · by_cases hdue : m.1 ∈ q.due now 100
    · exact Or.inl (List.mem_append_right _ hdue)
    · exact Or.inr ⟨m, List.mem_filter.mpr ⟨hm, by simpa using hdue⟩, rfl⟩

end QueueState

namespace Sys

variable {s s' : Sys} {a : Action}

/-- What a step of a request writes. -/
theorem step_postStep {i : ℕ} {reply : Reply} (h : s.step (.postStep i reply) = some s') :
    ∃ post out, s.posts[i]? = some post ∧ post.answer s.stores s.waiting reply = some out ∧
      s' = s.setPost i post out := by
  obtain ⟨post, hpost, hstep⟩ := Option.bind_eq_some_iff.mp h
  obtain ⟨out, hout, rfl⟩ := Option.map_eq_some_iff.mp hstep
  exact ⟨post, out, hpost, hout, rfl⟩

/-- Whatever was put on record is on file. -/
theorem Moves.filed (h : s.Moves a s') {queue : String} {e : TaskEnvelope}
    (hfiled : (s.redis.queues queue).Filed e) : (s'.redis.queues queue).Filed e := by
  have hmoves := h.queue_cases queue
  generalize s'.redis.queues queue = q' at hmoves
  cases hmoves with
  | enqueued hadded => exact hadded.filed hfiled
  | requeued => exact QueueState.Added.published.filed hfiled
  | retried => exact (QueueState.Added.scheduled _).filed hfiled
  | promoted => exact hfiled.promoteScheduled
  | same | delivered | adopted | acked | deadLettered => exact hfiled

theorem Reachable.filed (h : s.Reachable) :
    ∀ queue e, (queue, e) ∈ s.enqueued → (s.redis.queues queue).Filed e := by
  apply Transition.Reaches.invariant (I := fun s : Sys =>
    ∀ queue e, (queue, e) ∈ s.enqueued → (s.redis.queues queue).Filed e) ?_ h
  · simp [init]
  · intro s a s' hinv hstep queue e he
    have hmoves := moves_of_step hstep
    rcases hmoves.enqueued_cases he with hold | hadded
    · exact hmoves.filed (hinv queue e hold)
    · exact hadded.filed_self

/-- A request between its `COMMIT` and its end has its row in the table. -/
theorem Reachable.hasTask_of_committed (h : s.Reachable) :
    ∀ post ∈ s.posts, ¬ post.Uncommitted → ¬ post.Ended → s.HasTask post.taskId := by
  apply Transition.Reaches.invariant (I := fun s : Sys => ∀ post ∈ s.posts,
    ¬ post.Uncommitted → ¬ post.Ended → s.HasTask post.taskId) ?_ h
  · simp [init]
  · intro s a s' hinv hstep
    have hmoves := moves_of_step hstep
    have hold : ∀ post ∈ s.posts, ¬ post.Uncommitted → ¬ post.Ended → s'.HasTask post.taskId :=
      fun post hpost hcommitted hactive => hmoves.hasTask (hinv post hpost hcommitted hactive)
    rcases hmoves.control_cases with
      ⟨i, reply, post, out, -, -, hpost, hmove, rfl⟩ | ⟨req, taskId, -, -, rfl⟩ |
        ⟨queue, envelope, -, hposts, -⟩ | ⟨hposts, -⟩
    · apply Indexed.forall_mem_set hold
      intro hcommitted hactive
      rw [hmove.frame.2]
      cases hpc : out.post.pc with
      | dispatch =>
        obtain ⟨-, -, hdb⟩ := hmove.dispatch_cases hpc
        refine ⟨post.req.row post.taskId, ?_, rfl⟩
        rw [setPost_db, hdb]
        exact List.mem_append_right _ (List.mem_singleton.mpr rfl)
      | publish envelope =>
        -- the row has been there since the request was ready to dispatch
        obtain ⟨hbefore, -, -⟩ := hmove.publish_cases hpc
        exact hold post (List.mem_of_getElem? hpost) (by simp [Post.Uncommitted, hbefore])
          hmove.not_ended
      | ended response => exact absurd ⟨response, hpc⟩ hactive
      | _ => exact absurd (by simp [Post.Uncommitted, hpc]) hcommitted
    · apply Indexed.forall_mem_append_singleton hold
      intro hcommitted
      refine absurd ?_ hcommitted
      simp only [Post.begin, Post.Uncommitted]
      split <;> rename_i heq <;> split at heq <;> simp_all
    · rw [hposts]
      exact hold
    · rw [hposts]
      exact hold

/-! ### Complete requests -/

/-- No answer strands a request. -/
def EnqueuesFully (s : Sys) (a : Action) : Prop :=
  match a with
  | .postStep i reply => ∀ post ∈ s.posts[i]?, post.strands reply = false
  | _ => True

instance (s : Sys) : DecidablePred (EnqueuesFully s)
  | .postStep i reply => inferInstanceAs (Decidable (∀ post ∈ s.posts[i]?,
      post.strands reply = false))
  | .requeue _ _ | .cancel _ | .post _ _ | .produce _ _ _ | .requeueStep _ _ | .jobStep _ _
  | .deliver _ _ _ | .adopt _ _ _ _ | .handler _ _ | .heartbeat _ | .promote _ _ | .expire _ =>
    isTrue trivial

/-- A request that is over and has left a row has sent its envelope. -/
def Complete (s : Sys) : Prop :=
  ∀ post ∈ s.posts, post.Ended → s.HasTask post.taskId →
    ∃ e, (post.req.queue, e) ∈ s.enqueued ∧ e.taskId = post.taskId

/-- A request's own step keeps requests complete unless its answer strands it. -/
theorem Complete.post {i : ℕ} {post : Post} {reply : Reply} {out : Post.Outcome}
    (h : s.Complete) (hbooks : s.EnqueueInv) (hpost : s.posts[i]? = some post)
    (hanswer : post.answer s.stores s.waiting reply = some out)
    (hstrands : post.strands reply = false) : (s.setPost i post out).Complete := by
  have hmove := Post.moves_of_answer hanswer
  apply Indexed.forall_mem_set_of_ne
  · intro j other hj hother hended htask
    -- a new row would be of this request, not of the other one
    have hbefore : s.HasTask other.taskId := by
      obtain ⟨row, hrow, hid⟩ := htask
      rcases mem_tasks_post_cases hmove hrow with hold | ⟨rfl, -⟩
      · exact ⟨row, hold, hid⟩
      · exact absurd hid (hbooks.distinct hpost hother hj.symm)
    obtain ⟨e, he, heid⟩ := h other (List.mem_of_getElem? hother) hended hbefore
    exact ⟨e, List.mem_append_left _ he, heid⟩
  · intro hended htask
    rw [hmove.frame.1, hmove.frame.2]
    rw [hmove.frame.2] at htask
    -- it has sent its envelope, or there is no row of its own
    rcases Post.answer_of_not_strands hanswer hstrands hended with hsome | ⟨hun, hdb⟩
    · obtain ⟨e, hsent⟩ := Option.isSome_iff_exists.mp hsome
      obtain ⟨now, rfl⟩ := hbooks.sent_envelope hpost hmove hsent
      exact ⟨post.req.envelope post.taskId now, by simp [hsent], rfl⟩
    · obtain ⟨row, hrow, hid⟩ := htask
      rw [setPost_db, hdb] at hrow
      exact absurd hid (hbooks.uncommitted post (List.mem_of_getElem? hpost) hun row hrow)

theorem Complete.step (h : s.Complete) (hbooks : s.EnqueueInv) (ha : EnqueuesFully s a)
    (hstep : s.step a = some s') : s'.Complete := by
  rcases (moves_of_step hstep).control_cases with
    ⟨i, reply, -, -, rfl, -⟩ | ⟨req, taskId, -, -, rfl⟩ |
      ⟨queue, envelope, -, hposts, henqueued, hdb⟩ | ⟨hposts, henqueued, hcore⟩
  · obtain ⟨post, out, hpost, hanswer, rfl⟩ := step_postStep hstep
    exact h.post hbooks hpost hanswer (ha post hpost)
  · apply Indexed.forall_mem_append_singleton h
    rintro ⟨response, hpc⟩
    simp only [Post.begin] at hpc
    split at hpc <;> simp at hpc
  · intro post hpost hended htask
    obtain ⟨row, hrow, hid⟩ := htask
    obtain ⟨e, he, heid⟩ := h post (hposts ▸ hpost) hended ⟨row, hdb ▸ hrow, hid⟩
    exact ⟨e, henqueued ▸ List.mem_append_left _ he, heid⟩
  · intro post hpost hended htask
    rw [henqueued]
    exact h post (hposts ▸ hpost) hended (hasTask_of_core hcore.symm htask)

/-- Requests are complete in every run in which no answer strands one. -/
theorem complete_of_reaches (h : Transition.ReachesWhen step EnqueuesFully init s) :
    s.Complete := by
  apply h.invariant_along (I := Complete) (by simp [Complete, init])
  intro s a s' hrun hcomplete ha hstep
  have hbefore : s.Reachable := hrun.reaches
  exact hcomplete.step hbefore.enqueueInv ha hstep

/-! ### Stranded rows -/

/-- The task has a row, its request is over, and nobody has sent an envelope for it. -/
structure Stranded (s : Sys) (taskId : Uuid) : Prop where
  row : s.HasTask taskId
  ended : ∃ (i : ℕ) (post : Post), s.posts[i]? = some post ∧ post.taskId = taskId ∧ post.Ended
  unsent : ∀ x ∈ s.enqueued, x.2.taskId ≠ taskId

variable {taskId : Uuid}

/-- A stranding answer strands the request's task. -/
theorem stranded_of_strands {i : ℕ} {post : Post} {reply : Reply} {out : Post.Outcome}
    (h : s.Reachable) (hpost : s.posts[i]? = some post)
    (hanswer : post.answer s.stores s.waiting reply = some out)
    (hstrands : post.strands reply = true) : (s.setPost i post out).Stranded post.taskId := by
  have hmem := List.mem_of_getElem? hpost
  have hmove := Post.moves_of_answer hanswer
  obtain ⟨hended, hsent, hrow⟩ := Post.answer_of_strands hanswer hstrands
  refine ⟨?_, ⟨i, out.post, Indexed.getElem?_set_of_eq hpost, hmove.frame.2, hended⟩, ?_⟩
  · rcases hrow with hcommitted | hdb
    · obtain ⟨row, hrow, hid⟩ := h.hasTask_of_committed post hmem hcommitted hmove.not_ended
      rcases hmove.db_cases with hsame | ⟨-, hinsert⟩
      · exact ⟨row, by rwa [setPost_db, hsame], hid⟩
      · exact ⟨row, by rw [setPost_db, hinsert]; exact List.mem_append_left _ hrow, hid⟩
    · refine ⟨post.req.row post.taskId, ?_, rfl⟩
      rw [setPost_db, hdb]
      exact List.mem_append_right _ (List.mem_singleton.mpr rfl)
  · intro x hx
    have hold : x ∈ s.enqueued := by simpa [hsent] using hx
    exact h.enqueueInv.unsent post hmem hmove.not_ended x hold

/-- Nobody but its own request sends an envelope for a task, so a stranded one stays so. -/
theorem Stranded.step (h : s.Stranded taskId) (hbooks : s.EnqueueInv)
    (hstep : s.step a = some s') : s'.Stranded taskId := by
  have hmoves := moves_of_step hstep
  obtain ⟨j, own, hown, hid, hended⟩ := h.ended
  rcases hmoves.control_cases with
    ⟨i, reply, post, out, -, -, hpost, hmove, rfl⟩ | ⟨req, fresh, -, hfresh, rfl⟩ |
      ⟨queue, envelope, hfresh, hposts, henqueued, -⟩ | ⟨hposts, henqueued, -⟩
  · -- the request that moves is another one, for the task's own is over
    have hne : j ≠ i := by
      rintro rfl
      obtain rfl := Option.mem_unique hown hpost
      exact hmove.not_ended hended
    refine ⟨hmoves.hasTask h.row, ⟨j, own, ?_, hid, hended⟩, ?_⟩
    · rw [setPost_posts, Indexed.getElem?_set_of_ne hne]
      exact hown
    · intro x hx heq
      rcases hbooks.enqueued_post hpost hmove x hx with hold | ⟨-, -, now, hnew⟩
      · exact h.unsent x hold heq
      · rw [hnew] at heq
        exact hbooks.distinct hpost hown hne.symm (heq.trans hid.symm)
  · refine ⟨h.row, ⟨j, own, ?_, hid, hended⟩, h.unsent⟩
    exact Indexed.getElem?_of_grow (List.prefix_append _ _) hown
  · refine ⟨hmoves.hasTask h.row, ⟨j, own, hposts ▸ hown, hid, hended⟩, ?_⟩
    rw [henqueued]
    apply Indexed.forall_mem_append_singleton h.unsent
    exact fun heq => hfresh.1 own (List.mem_of_getElem? hown) (hid.trans heq.symm)
  · refine ⟨hmoves.hasTask h.row, ⟨j, own, hposts ▸ hown, hid, hended⟩, ?_⟩
    rw [henqueued]
    exact h.unsent

/-- No queue ever holds a message for a stranded task, unless something is requeued. -/
theorem Stranded.not_held (h : s.Stranded taskId)
    (hreach : Transition.ReachesWhen Sys.step WithoutRequeue init s)
    (hrun : Transition.ReachesWhen Sys.step WithoutRequeue s s') :
    ∀ queue e, (s'.redis.queues queue).Holds e → e.taskId ≠ taskId := by
  have hlater : s'.Stranded taskId := by
    apply hrun.invariant_along (I := fun s => s.Stranded taskId) h
    intro u a v hu hstranded _ hstep
    have hbefore : u.Reachable := (hreach.trans hu).reaches
    exact hstranded.step hbefore.enqueueInv hstep
  intro queue e hholds hid
  obtain ⟨e₀, he₀, hsame⟩ := (custodyInv_of_reaches (hreach.trans hrun)).origin queue e hholds
  exact hlater.unsent _ he₀ (hsame.taskId_eq.trans hid)

/-- **Enqueue is never half done, except by a stranding answer.** In every run in which no
answer strands a request: a request that is over and whose row is in the table has its
envelope on the stream or in the schedule of its queue. And this is exact: every stranding
answer ends a request, leaves its row in the table, and in whatever run follows without a
requeue, later requests included, no queue ever holds a message for that task. -/
theorem enqueue_complete_unless_stranded (s : Sys) :
    (Transition.ReachesWhen step EnqueuesFully init s → ∀ post ∈ s.posts, post.Ended →
      ∀ row ∈ s.db.tasks, row.id = post.taskId →
        ∃ now, (s.redis.queues post.req.queue).Filed (post.req.envelope post.taskId now)) ∧
    ∀ i reply s', Transition.ReachesWhen step WithoutRequeue init s →
      ¬ EnqueuesFully s (.postStep i reply) → s.step (.postStep i reply) = some s' →
        ∃ post ∈ s'.posts, post.Ended ∧ (∃ row ∈ s'.db.tasks, row.id = post.taskId) ∧
          ∀ s'', Transition.ReachesWhen step WithoutRequeue s' s'' →
            ∀ queue e, (s''.redis.queues queue).Holds e → e.taskId ≠ post.taskId := by
  constructor
  · intro h post hpost hended row hrow hid
    have hreach : s.Reachable := h.reaches
    obtain ⟨e, he, heid⟩ := complete_of_reaches h post hpost hended ⟨row, hrow, hid⟩
    obtain ⟨-, now, henvelope⟩ := hreach.enqueueInv.sent _ he post hpost heid.symm
    exact ⟨now, henvelope ▸ hreach.filed _ _ he⟩
  · intro i reply s' h hnot hstep
    obtain ⟨post, out, hpost, hanswer, rfl⟩ := step_postStep hstep
    have hstrands : post.strands reply = true := by
      by_contra hfalse
      apply hnot
      intro other hother
      obtain rfl := Option.mem_unique hpost hother
      simpa using hfalse
    have hstranded := stranded_of_strands h.reaches hpost hanswer hstrands
    obtain ⟨j, own, hown, hid, hended⟩ := hstranded.ended
    refine ⟨own, List.mem_of_getElem? hown, hended, hid ▸ hstranded.row, fun s'' hrun => ?_⟩
    rw [hid]
    exact hstranded.not_held (h.tail (a := .postStep i reply) rfl hstep) hrun

/-- A request with a `run_at`, and the answers it needs if the time is in the future: the
`SELECT`, the `INSERT`, the `COMMIT` and the call of `schedule`. -/
def requestAt (runAt : DateTime) : List Action :=
  .post { queue := "q", taskName := "t", payload := .null, dedupKey := some "k",
          runAt := some runAt } ⟨1⟩ ::
    List.replicate 4 (.postStep 0 (.ok 0 0))

/-- The theorem at a request for a future time with a timezone. -/
theorem enqueue_complete_unless_stranded_future : ∃ s : Sys, ∃ post ∈ s.posts, post.Ended ∧
    (∃ row ∈ s.db.tasks, row.id = post.taskId) ∧
    ∃ now, (s.redis.queues post.req.queue).Filed (post.req.envelope post.taskId now) := by
  obtain ⟨s, hreach, post, hpost, hended, row, hrow, hid⟩ :=
    Transition.exists_reachesWhen_of_check step EnqueuesFully init (requestAt ⟨10, some 0⟩)
    (fun s => ∃ post ∈ s.posts, post.Ended ∧ ∃ row ∈ s.db.tasks, row.id = post.taskId)
    (by decide +kernel)
  exact ⟨s, post, hpost, hended, ⟨row, hrow, hid⟩,
    (enqueue_complete_unless_stranded s).1 hreach post hpost hended row hrow hid⟩

/-- A request that is stranded without any fault: its `run_at` has no timezone. It ends
without an answer, its row says scheduled, the same request sent again is answered as
deduplicated, and no message for the task will ever be on any queue. -/
theorem half_done_request : ∃ s : Sys, Transition.ReachesWhen step WithoutRequeue init s ∧
    ∃ row ∈ s.db.tasks, row.state = .scheduled ∧
      (∃ post ∈ s.posts, post.taskId = row.id ∧ post.pc = .ended none) ∧
      (∃ post ∈ s.posts, post.pc = .ended (some ⟨row.id, true⟩)) ∧
      ∀ s', Transition.ReachesWhen step WithoutRequeue s s' →
        ∀ queue e, (s'.redis.queues queue).Holds e → e.taskId ≠ row.id := by
  obtain ⟨s, hreach, ⟨row, hrow, hstate, ⟨post, hpost, hid, hpc⟩, hagain⟩, hempty⟩ :=
    Transition.exists_reachesWhen_of_check step WithoutRequeue init
    (requestAt ⟨10, none⟩ ++
      [.post { queue := "q", taskName := "t", payload := .null, dedupKey := some "k",
               runAt := some ⟨10, none⟩ } ⟨2⟩, .postStep 1 (.ok 0 0), .postStep 1 (.ok 0 0)])
    (fun s => (∃ row ∈ s.db.tasks, row.state = .scheduled ∧
      (∃ post ∈ s.posts, post.taskId = row.id ∧ post.pc = .ended none) ∧
      ∃ post ∈ s.posts, post.pc = .ended (some ⟨row.id, true⟩)) ∧ s.enqueued = [])
    (by decide +kernel)
  refine ⟨s, hreach, row, hrow, hstate, ⟨post, hpost, hid, hpc⟩, hagain, fun s' hrun => ?_⟩
  obtain ⟨i, hi⟩ := List.mem_iff_getElem?.mp hpost
  have hstranded : s.Stranded row.id :=
    ⟨⟨row, hrow, rfl⟩, ⟨i, post, hi, hid, none, hpc⟩, by simp [hempty]⟩
  exact hstranded.not_held hreach hrun

end Sys

end Dtq
