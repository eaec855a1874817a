import Dtq.System.Unexecuted

/-!
# Cancelling a task

`cancel_task` changes the row of a task and nothing else. The task's message stays where it
is, and no worker looks at the row before it executes the message: the execution takes the
lease, records its attempt and sets the row to leased.

A task that can be cancelled has a message, somewhere on its way, unless its request was
cut off between the row and the message. So that is when a cancellation is final.

## Main results

* `Sys.exists_leased_of_queued` — a message leads to an execution
* `Sys.cancel_final_iff` — when a cancellation is final
-/

set_option autoImplicit false

namespace Dtq

/-- A tick at the time of some member moves one at least. -/
theorem QueueState.length_undue_lt {q : QueueState} {m : TaskEnvelope × ℚ} (hm : m ∈ q.sched) :
    (q.sched.filter fun x => x.1 ∉ q.due m.2 100).length < q.sched.length := by
  have hdue : m ∈ q.sched.filter fun x => x.2 ≤ m.2 := List.mem_filter.mpr ⟨hm, by simp⟩
  obtain ⟨first, rest, hsplit⟩ := List.exists_cons_of_ne_nil (List.ne_nil_of_mem hdue)
  have hfirst : first.1 ∈ q.due m.2 100 := by simp [due, hsplit]
  have hmem : first ∈ q.sched := (List.mem_filter.mp (hsplit ▸ List.mem_cons_self)).1
  refine List.length_filter_lt_length_iff_exists.mpr ⟨first, hmem, ?_⟩
  simpa using hfirst

namespace Sys

variable {s s' : Sys} {a : Action} {taskId : Uuid}

/-- No two rows have the same id. -/
theorem Reachable.ids_nodup (h : s.Reachable) : (s.db.tasks.map TaskRow.id).Nodup := by
  apply Transition.ReachesWhen.invariant_along (I := fun s : Sys =>
    (s.db.tasks.map TaskRow.id).Nodup) h (by simp [init, Db.empty])
  intro u b v hrun hnodup _ hstep
  have hreach : u.Reachable := hrun
  rcases (moves_of_step hstep).rows_cases with hcore | ⟨i, reply, post, -, -, hpost, hpc, happend⟩
  · have hids := congrArg (List.map TaskRow.id) hcore
    simp only [List.map_map] at hids
    have hkept : TaskRow.id ∘ TaskRow.core = TaskRow.id := rfl
    rw [hkept] at hids
    rwa [hids]
  · rw [happend, List.map_append, List.map_singleton]
    refine List.nodup_append.mpr ⟨hnodup, List.nodup_singleton _, ?_⟩
    intro id hid other hother
    rw [List.mem_singleton.mp hother]
    obtain ⟨row, hrow, rfl⟩ := List.mem_map.mp hid
    exact hreach.enqueueInv.uncommitted post (List.mem_of_getElem? hpost)
      (by simp [Post.Uncommitted, hpc]) row hrow

theorem Reachable.row_eq_of_id (h : s.Reachable) {row row' : TaskRow} (hrow : row ∈ s.db.tasks)
    (hrow' : row' ∈ s.db.tasks) (hid : row.id = row'.id) : row = row' :=
  List.inj_on_of_nodup_map h.ids_nodup hrow hrow' hid

/-! ### A task without a message stays cancelled -/

/-- No message was handed to the broker for the task, and none will be: the task's request
is over, or is about to fail on a `run_at` that it cannot compare. -/
structure Silent (s : Sys) (taskId : Uuid) : Prop where
  unsent : ∀ x ∈ s.enqueued, x.2.taskId ≠ taskId
  posts : ∀ post ∈ s.posts, post.taskId = taskId →
    post.Ended ∨ post.pc = .dispatch ∧ post.req.comparable = false

/-- Nobody works on a task without a message. -/
theorem CustodyInv.no_job_of_silent (hinv : s.CustodyInv) (h : s.Silent taskId) :
    ∀ job ∈ s.jobs, job.envelope.taskId ≠ taskId := by
  intro job hjob hid
  obtain ⟨-, e, he, hsame⟩ := hinv.jobs job hjob
  obtain ⟨x, hx, hsame'⟩ := hinv.origin _ e (Or.inl (List.mem_of_getElem? he))
  exact h.unsent _ hx (hsame'.taskId_eq.trans (hsame.taskId_eq.trans hid))

/-- A request that cannot compare its `run_at` ends without handing over anything. -/
theorem ended_of_not_comparable {post : Post} {out : Post.Outcome} {stores : Stores}
    {waiting : List TaskRow} (hmove : post.Moves stores waiting out) (hpc : post.pc = .dispatch)
    (hnaive : post.req.comparable = false) : out.post.Ended ∧ out.sent = none := by
  have hproceeds : ∀ out', post.Proceeds stores waiting out' →
      out'.post.Ended ∧ out'.sent = none := by
    intro out' hproceeds
    cases hproceeds with
    | naive => exact ⟨⟨none, rfl⟩, rfl⟩
    | prepared now _ hdue =>
      cases hrunAt : post.req.runAt with
      | none => simp [CreateTaskRequest.comparable, hrunAt] at hnaive
      | some runAt =>
        have haware := hdue runAt hrunAt
        simp_all [CreateTaskRequest.comparable]
    | scheduled now at_ runAt _ hrunAt hat =>
      simp [CreateTaskRequest.comparable, hrunAt, hat] at hnaive
    | _ => simp_all
  cases hmove with
  | proceeds h => exact hproceeds _ h
  | abortedAfter h => exact ⟨⟨none, rfl⟩, (hproceeds _ h).2⟩
  | aborted => exact ⟨⟨none, rfl⟩, rfl⟩

theorem Silent.step (h : s.Silent taskId) (hbooks : s.EnqueueInv) (htask : s.HasTask taskId)
    (hmoves : s.Moves a s') : s'.Silent taskId := by
  obtain ⟨row, hrow, hrowId⟩ := htask
  obtain ⟨own, hown, -, hownId, -⟩ := hbooks.exists_post hrow
  have hownId : own.taskId = taskId := hownId.trans hrowId
  rcases hmoves.control_cases with
    ⟨i, reply, post, out, -, -, hpost, hmove, rfl⟩ | ⟨req, fresh, -, hfresh, rfl⟩ |
      ⟨queue, envelope, hfresh, hposts, henqueued, -⟩ | ⟨hposts, henqueued, -⟩
  · have hmem := List.mem_of_getElem? hpost
    have hlast : post.taskId = taskId → out.post.Ended ∧ out.sent = none := by
      intro hid
      rcases h.posts post hmem hid with hended | ⟨hpc, hnaive⟩
      · exact absurd hended hmove.not_ended
      · exact ended_of_not_comparable hmove hpc hnaive
    constructor
    · intro x hx hid
      rcases hbooks.enqueued_post hpost hmove x hx with hx | ⟨-, -, now, henvelope⟩
      · exact h.unsent x hx hid
      · -- the request would have sent it for its own task
        have hsent := (hlast (by rw [← hid, henvelope]; rfl)).2
        rw [setPost_enqueued, hsent] at hx
        exact h.unsent x (by simpa using hx) hid
    · rw [setPost_posts]
      apply Indexed.forall_mem_set h.posts
      intro hid
      exact Or.inl (hlast (hmove.frame.2.symm.trans hid)).1
  · refine ⟨h.unsent, Indexed.forall_mem_append_singleton h.posts fun hid => ?_⟩
    exact absurd (hownId.trans hid.symm) (hfresh.1 own hown)
  · refine ⟨fun x hx hid => ?_, hposts ▸ h.posts⟩
    rw [henqueued, List.mem_append, List.mem_singleton] at hx
    rcases hx with hx | rfl
    · exact h.unsent x hx hid
    · exact hfresh.1 own hown (hownId.trans hid.symm)
  · exact ⟨henqueued ▸ h.unsent, hposts ▸ h.posts⟩

/-- The task is cancelled and no effect is committed for it. -/
structure StaysCancelled (s : Sys) (taskId : Uuid) : Prop where
  silent : s.Silent taskId
  task : s.HasTask taskId
  rows : ∀ row ∈ s.db.tasks, row.id = taskId → row.state = .cancelled
  effects : ∀ row ∈ s.db.effects, row.taskId ≠ taskId

/-- Cancelling a task without a message. -/
theorem Reachable.staysCancelled_of_cancel (h : s.Reachable) (hsilent : s.Silent taskId)
    (hcancellable : s.Cancellable taskId) (heffects : ∀ row ∈ s.db.effects, row.taskId ≠ taskId) :
    StaysCancelled { s with db := s.db.cancelTask taskId } taskId := by
  obtain ⟨row, hrow, hid, hstate⟩ := hcancellable
  have htask : HasTask { s with db := s.db.cancelTask taskId } taskId :=
    hasTask_of_core (Db.cancelTask_core _ _) ⟨row, hrow, hid⟩
  refine ⟨⟨hsilent.unsent, hsilent.posts⟩, htask, fun row' hrow' hid' => ?_, heffects⟩
  obtain ⟨old, hold, rfl⟩ := List.mem_map.mp hrow'
  have holdId : old.id = taskId := by
    split_ifs at hid' <;> exact hid'
  -- it is the row that could be cancelled
  have hsame : old.state = row.state :=
    congrArg TaskRow.state (h.row_eq_of_id hold hrow (holdId.trans hid.symm))
  rw [if_pos ⟨holdId, by rwa [hsame]⟩]

theorem StaysCancelled.rows_step (h : s.StaysCancelled taskId) (hcustody : s.CustodyInv)
    (hmoves : s.Moves a s') : ∀ row ∈ s'.db.tasks, row.id = taskId → row.state = .cancelled := by
  have hnobody := hcustody.no_job_of_silent h.silent
  intro row hrow hid
  cases hmoves with
  | @job _ i job job' stores' ha hjob hmove =>
    -- the jobs write to other rows
    have hother : row.id ≠ job.envelope.taskId := fun heq =>
      hnobody job (List.mem_of_getElem? hjob) (heq.symm.trans hid)
    rw [setJob_db] at hrow
    obtain ⟨result, -, -, hmap⟩ | ⟨-, hsame | ⟨-, hmap⟩ | ⟨-, hmap⟩⟩ := hmove.tasks_cases
    case inr.inl => exact h.rows row (hsame ▸ hrow) hid
    all_goals exact h.rows row (state_of_setState (hmap ▸ hrow) hother) hid
  | post ha hpost hmove =>
    rcases hmove.db_cases with hdb | ⟨hpc, hdb⟩
    · exact h.rows row (by rwa [setPost_db, hdb] at hrow) hid
    · rw [setPost_db, hdb] at hrow
      rcases List.mem_append.mp hrow with hold | hnew
      · exact h.rows row hold hid
      · -- the task's request has committed its row long ago
        obtain rfl := List.mem_singleton.mp hnew
        rcases h.silent.posts _ (List.mem_of_getElem? hpost) hid with ⟨response, hended⟩ | ⟨hpc', -⟩
        · simp [hpc] at hended
        · simp [hpc] at hpc'
  | requeue ha hrequeue => simp [hcustody.requeues] at hrequeue
  | cancelled =>
    obtain ⟨old, hold, rfl⟩ := List.mem_map.mp hrow
    split_ifs at hid ⊢
    · rfl
    · exact h.rows old hold hid
  | delivered | adopted | posted | produced | requeued | leases | promoted =>
    exact h.rows row hrow hid

theorem StaysCancelled.step (h : s.StaysCancelled taskId) (hbooks : s.EnqueueInv)
    (hcustody : s.CustodyInv) (hmoves : s.Moves a s') : s'.StaysCancelled taskId := by
  refine ⟨h.silent.step hbooks h.task hmoves, hmoves.hasTask h.task,
    h.rows_step hcustody hmoves, fun row hrow hid => ?_⟩
  rcases hmoves.worker_cases with
    ⟨i, job, job', stores', -, hjob, hmove, rfl⟩ | ⟨job, -, -, hdb, -⟩ | ⟨-, heffects, -⟩
  · rcases hmove.mem_effects_cases hrow with hold | ⟨result, -, -, rfl⟩
    · exact h.effects row hold hid
    · exact hcustody.no_job_of_silent h.silent job (List.mem_of_getElem? hjob) hid
  · exact h.effects row (hdb ▸ hrow) hid
  · exact h.effects row (heffects ▸ hrow) hid

theorem staysCancelled_of_reaches (h : Transition.ReachesWhen step WithoutRequeue init s)
    (hstays : s.StaysCancelled taskId) (hrun : Transition.ReachesWhen step WithoutRequeue s s') :
    s'.StaysCancelled taskId := by
  apply hrun.invariant_along (I := fun u => u.StaysCancelled taskId) hstays
  intro u b v hu hinv _ hstep
  have hreach : u.Reachable := (h.trans hu).reaches
  exact hinv.step hreach.enqueueInv (custodyInv_of_reaches (h.trans hu)) (moves_of_step hstep)

/-! ### A task with a message is executed all the same -/

section Drive

variable {queue : String} {e : TaskEnvelope}

/-- A run without requeues that leaves the tables alone. -/
structure Quietly (s s' : Sys) : Prop where
  reaches : Transition.ReachesWhen step WithoutRequeue s s'
  db : s'.db = s.db
  requeues : s'.requeues = s.requeues

theorem Quietly.trans {s₁ s₂ s₃ : Sys} (h : s₁.Quietly s₂) (h' : s₂.Quietly s₃) : s₁.Quietly s₃ :=
  ⟨h.reaches.trans h'.reaches, h'.db.trans h.db, h'.requeues.trans h.requeues⟩

theorem Quietly.of_step (hstep : s.step a = some s') (ha : WithoutRequeue s a) (hdb : s'.db = s.db)
    (hrequeues : s'.requeues = s.requeues) : s.Quietly s' :=
  ⟨(Transition.ReachesWhen.refl s).tail ha hstep, hdb, hrequeues⟩

/-- A message of the task is pending. -/
def HasPending (s : Sys) (queue : String) (e : TaskEnvelope) : Prop :=
  ∃ p ∈ (s.redis.queues queue).pending, ∃ e',
    (s.redis.queues queue).stream[p.id]? = some e' ∧ e.SameTask e'

theorem step_deliver {x : TaskEnvelope}
    (hentry : (s.redis.queues queue).stream[(s.redis.queues queue).delivered]? = some x) :
    s.step (.deliver "w" 1 queue) = some (s.spawn queue
      { s.redis.queues queue with
        delivered := (s.redis.queues queue).delivered + 1
        pending := (s.redis.queues queue).pending ++ [⟨(s.redis.queues queue).delivered, "w"⟩] }
      (deliveredJob "w" 1 queue (s.redis.queues queue).delivered x (.execute .acquireLease))) := by
  simp only [Sys.step, QueueState.lease, hentry, Option.map_some]
  rfl

/-- An undelivered entry is pending after the deliveries up to it. -/
theorem exists_pending_of_stream (n : ℕ) (s : Sys) {k : ℕ} {e' : TaskEnvelope}
    (hk : k = (s.redis.queues queue).delivered + n)
    (hentry : (s.redis.queues queue).stream[k]? = some e') (hsame : e.SameTask e') :
    ∃ s', s.Quietly s' ∧ s'.HasPending queue e := by
  induction n generalizing s with
  | zero =>
    subst hk
    refine ⟨_, .of_step (step_deliver hentry) rfl rfl rfl, ?_⟩
    refine ⟨⟨(s.redis.queues queue).delivered, "w"⟩, ?_, e', ?_, hsame⟩ <;>
      simp only [spawn_redis, Redis.modifyQueue_self]
    · exact List.mem_append_right _ (List.mem_singleton.mpr rfl)
    · exact hentry
  | succ n ih =>
    -- there is an entry before it
    obtain ⟨hlt, -⟩ := List.getElem?_eq_some_iff.mp hentry
    have hfirst := List.getElem?_eq_getElem (show
      (s.redis.queues queue).delivered < (s.redis.queues queue).stream.length by omega)
    have hdeliver := Quietly.of_step (step_deliver hfirst) rfl rfl rfl
    refine (ih (s.spawn queue _ _) ?_ ?_).imp fun s' hs' => ⟨hdeliver.trans hs'.1, hs'.2⟩
    · simp only [spawn_redis, Redis.modifyQueue_self]
      omega
    · simp only [spawn_redis, Redis.modifyQueue_self]
      exact hentry

/-- A scheduled message is undelivered after enough ticks, for each tick moves at least one. -/
theorem exists_pending_of_sched (n : ℕ) (s : Sys)
    (hlength : (s.redis.queues queue).sched.length ≤ n)
    (hdelivered : (s.redis.queues queue).delivered ≤ (s.redis.queues queue).stream.length)
    {m : TaskEnvelope × ℚ} (hm : m ∈ (s.redis.queues queue).sched) (hsame : e.SameTask m.1) :
    ∃ s', s.Quietly s' ∧ s'.HasPending queue e := by
  induction n generalizing s with
  | zero =>
    rw [List.eq_nil_of_length_eq_zero (Nat.le_zero.mp hlength)] at hm
    simp at hm
  | succ n ih =>
    set s₁ : Sys :=
      { s with redis := s.redis.modifyQueue queue (·.promoteScheduled m.2) } with hs₁
    have hpromote : s.Quietly s₁ := .of_step (a := .promote queue m.2) rfl rfl rfl rfl
    have hqueue : s₁.redis.queues queue =
        { s.redis.queues queue with
          stream := (s.redis.queues queue).stream ++ (s.redis.queues queue).due m.2 100
          sched := (s.redis.queues queue).sched.filter
            fun x => x.1 ∉ (s.redis.queues queue).due m.2 100 } := by
      rw [hs₁, Redis.modifyQueue_self, QueueState.promoteScheduled_eq]
    by_cases hdue : m.1 ∈ (s.redis.queues queue).due m.2 100
    · obtain ⟨j, hj⟩ := List.mem_iff_getElem?.mp hdue
      have hentry : (s₁.redis.queues queue).stream[(s.redis.queues queue).stream.length + j]? =
          some m.1 := by
        rw [hqueue, List.getElem?_append_right (Nat.le_add_right _ _), Nat.add_sub_cancel_left]
        exact hj
      obtain ⟨s', hquiet, hpending⟩ := exists_pending_of_stream
        ((s.redis.queues queue).stream.length + j - (s.redis.queues queue).delivered) s₁
        (by rw [hqueue]; simp only; omega) hentry hsame
      exact ⟨s', hpromote.trans hquiet, hpending⟩
    · -- others were moved first
      refine (ih s₁ ?_ ?_ ?_).imp fun s' hs' => ⟨hpromote.trans hs'.1, hs'.2⟩
      · rw [hqueue]
        exact Nat.le_of_lt_succ ((QueueState.length_undue_lt hm).trans_le hlength)
      · rw [hqueue]
        simp only [List.length_append]
        omega
      · rw [hqueue]
        exact List.mem_filter.mpr ⟨hm, by simpa using hdue⟩

/-- A message of a task that was never executed leads to an execution. -/
theorem exists_leased_of_queued (hcustody : s.CustodyInv) (hqueued : s.Queued queue e)
    (htask : s.HasTask e.taskId) (hnever : ¬ s.Attempted e.taskId) :
    ∃ s', Transition.ReachesWhen step WithoutRequeue s s' ∧
      ∃ row ∈ s'.db.tasks, row.id = e.taskId ∧ row.state = .leased := by
  obtain ⟨s₁, hquiet₁, p, hp, e', he', hsame⟩ :
      ∃ s', s.Quietly s' ∧ s'.HasPending queue e := by
    rcases hqueued with (⟨k, e', hk, he', hsame⟩ | ⟨m, hm, hsame⟩) | ⟨p, hp, ⟨e', he', hsame⟩, -⟩
    · exact exists_pending_of_stream (k - (s.redis.queues queue).delivered) s (by omega) he' hsame
    · exact exists_pending_of_sched _ s le_rfl (hcustody.delivered queue) hm hsame
    · exact ⟨s, ⟨.refl s, rfl, rfl⟩, p, hp, e', he', hsame⟩
  -- whoever holds the lease loses it
  set s₂ : Sys :=
    { s₁ with redis := s₁.redis.withLeases (s₁.redis.leaseStore.expireLease e'.taskId.str) }
    with hs₂
  have hexpire : s₁.Quietly s₂ := .of_step (a := .expire e'.taskId.str) rfl rfl rfl rfl
  have hfree : s₂.redis.leaseStore.leases e'.taskId.str = none := by
    simp [hs₂, LeaseStore.expireLease]
  obtain ⟨s₃, i, job, hreach, hjob, hpc, henvelope, -, -, hdb, hrequeues, -⟩ :=
    exists_acquired (s := s₂) hp he' hfree
  have hquiet₃ : s.Quietly s₃ := (hquiet₁.trans hexpire).trans ⟨hreach, hdb, hrequeues⟩
  have hid : job.envelope.taskId = e.taskId := by
    rw [henvelope, TaskEnvelope.nextAttempt_taskId, hsame.taskId_eq]
  have hlock : s₃.locks.updating job.envelope.taskId = false := by
    simp [locks, hquiet₃.requeues, hcustody.requeues]
  obtain ⟨row, hrow, hrowId⟩ := htask
  rw [← hquiet₃.db] at hrow
  have hnew : ∀ other ∈ s₃.db.attempts, ¬ (other.taskId = job.envelope.taskId ∧
      other.attemptNo = job.envelope.attemptNo) := by
    rw [hquiet₃.db]
    exact fun other hother hsame => hnever ⟨other, hother, hsame.1.trans hid⟩
  refine ⟨_, hquiet₃.reaches.tail (a := .jobStep i (.ok 0 0)) rfl
    (step_of_recordAttempt hjob hpc hlock ⟨row, hrow, hrowId.trans hid.symm⟩ hnew),
    _, List.mem_map_of_mem hrow, ?_, ?_⟩
  · rw [Db.setState_id, hrowId]
  · rw [Db.setState, if_pos (hrowId.trans hid.symm)]

/-- A request's pending call returns without touching the tables. -/
theorem Quietly.of_proceed {i : ℕ} {post : Post} {out : Post.Outcome}
    (hpost : s.posts[i]? = some post) (hout : post.proceed s.stores s.waiting 0 = some out)
    (hdb : out.stores.db = s.db) : s.Quietly (s.setPost i post out) := by
  have hstep : s.step (.postStep i (.ok 0 0)) = some (s.setPost i post out) := by
    simp [Sys.step, hpost, stepPost, Post.answer, hout]
  exact .of_step hstep rfl hdb rfl

theorem exists_waits_of_publish {i : ℕ} {post : Post} (hpost : s.posts[i]? = some post)
    (hpc : post.pc = .publish e)
    (hdelivered : (s.redis.queues post.req.queue).delivered ≤
      (s.redis.queues post.req.queue).stream.length) :
    ∃ s', s.Quietly s' ∧ (s'.redis.queues post.req.queue).Waits e := by
  have hout : post.proceed s.stores s.waiting 0 = some
      { stores :=
          { s.stores with redis := s.redis.modifyQueue post.req.queue (·.publish e) }
        post := post.created
        sent := some e } := by
    simp [Post.proceed, hpc]
  refine ⟨_, .of_proceed hpost hout rfl, ?_⟩
  rw [setPost_redis, Redis.modifyQueue_self]
  exact QueueState.Added.published.waits_self (.refl e) hdelivered

/-- A request that has committed its row and can compare its `run_at` gets to the broker. -/
theorem exists_waits_of_dispatch {i : ℕ} {post : Post} (hpost : s.posts[i]? = some post)
    (hpc : post.pc = .dispatch) (hcomparable : post.req.comparable = true)
    (hdelivered : (s.redis.queues post.req.queue).delivered ≤
      (s.redis.queues post.req.queue).stream.length) :
    ∃ s', s.Quietly s' ∧
      (s'.redis.queues post.req.queue).Waits (post.req.envelope post.taskId 0) := by
  set next : Post.Outcome :=
    { stores := s.stores, post := post.goto (.publish (post.req.envelope post.taskId 0)) }
  have hprepared : post.proceed s.stores s.waiting 0 = some next → ∃ s', s.Quietly s' ∧
      (s'.redis.queues post.req.queue).Waits (post.req.envelope post.taskId 0) := by
    intro hout
    have hnext : (s.setPost i post next).posts[i]? = some next.post :=
      Indexed.getElem?_set_of_eq hpost
    obtain ⟨s', hquiet, hwaits⟩ := exists_waits_of_publish hnext rfl hdelivered
    exact ⟨s', (Quietly.of_proceed hpost hout rfl).trans hquiet, hwaits⟩
  cases hrunAt : post.req.runAt with
  | none => exact hprepared (by simp [Post.proceed, hpc, hrunAt, next])
  | some runAt =>
    obtain ⟨at_, hat⟩ : ∃ at_, runAt.timestamp = some at_ := by
      simpa [CreateTaskRequest.comparable, hrunAt, Option.isSome_iff_exists] using hcomparable
    by_cases hlater : 0 < at_
    · have hout : post.proceed s.stores s.waiting 0 = some
          { stores :=
              { s.stores with
                redis := s.redis.modifyQueue post.req.queue
                  (·.schedule (post.req.envelope post.taskId 0) at_) }
            post := post.created
            sent := some (post.req.envelope post.taskId 0) } := by
        simp [Post.proceed, hpc, hrunAt, DateTime.gtNow, hat, hlater]
      refine ⟨_, .of_proceed hpost hout rfl, ?_⟩
      rw [setPost_redis, Redis.modifyQueue_self]
      exact (QueueState.Added.scheduled at_).waits_self (.refl _) hdelivered
    · exact hprepared (by simp [Post.proceed, hpc, hrunAt, DateTime.gtNow, hat, hlater, next])

/-- A request that has committed its row is over, or bound to fail, or gets to the broker. -/
theorem exists_queued_of_committed (hbooks : s.EnqueueInv) (hcustody : s.CustodyInv) {post : Post}
    (hpost : post ∈ s.posts) (hcommitted : ¬ post.Uncommitted)
    (hactive : ¬ (post.Ended ∨ post.pc = .dispatch ∧ post.req.comparable = false)) :
    ∃ s' queue e, s.Quietly s' ∧ s'.Queued queue e ∧ e.taskId = post.taskId := by
  obtain ⟨i, hi⟩ := List.mem_iff_getElem?.mp hpost
  cases hpc : post.pc with
  | select | insert | commit | commitFound => simp [Post.Uncommitted, hpc] at hcommitted
  | ended response => exact absurd (Or.inl ⟨response, hpc⟩) hactive
  | dispatch =>
    have hcomparable : post.req.comparable = true := by
      by_contra hnaive
      exact hactive (Or.inr ⟨hpc, by simpa using hnaive⟩)
    obtain ⟨s', hquiet, hwaits⟩ :=
      exists_waits_of_dispatch hi hpc hcomparable (hcustody.delivered _)
    exact ⟨s', _, _, hquiet, Or.inl hwaits, rfl⟩
  | publish e =>
    obtain ⟨now, rfl⟩ := hbooks.publishes post hpost e hpc
    obtain ⟨s', hquiet, hwaits⟩ := exists_waits_of_publish hi hpc (hcustody.delivered _)
    exact ⟨s', _, _, hquiet, Or.inl hwaits, rfl⟩

end Drive

/-- **When a cancellation is final.** Take any state of a run without requeues in which a
task is pending or scheduled, so that `cancel_task` returns true. In every later state of
such a run the task is cancelled, none of its handlers has been started and no effect
committed for it, exactly when no message was handed to the broker for the task and none
will be. -/
theorem cancel_final_iff (h : Transition.ReachesWhen step WithoutRequeue init s) :
    ∀ taskId s₁, s.Cancellable taskId → s.step (.cancel taskId) = some s₁ →
      ((∀ s', Transition.ReachesWhen step WithoutRequeue s₁ s' →
          (∀ row ∈ s'.db.tasks, row.id = taskId → row.state = .cancelled) ∧
          (∀ job ∈ s'.jobs, job.envelope.taskId = taskId → job.started = false) ∧
          ∀ row ∈ s'.db.effects, row.taskId ≠ taskId) ↔
        s.Silent taskId) := by
  intro taskId s₁ hcancellable hcancel
  have hreach : s.Reachable := h.reaches
  have hattempted := attemptedInv_of_reaches h
  have h₁ : Transition.ReachesWhen step WithoutRequeue init s₁ :=
    h.tail (a := .cancel taskId) rfl hcancel
  have hnever : ¬ s.Attempted taskId := fun hdone => (hattempted.rows taskId hdone).2 hcancellable
  obtain ⟨row, hrow, hid, hstate⟩ := hcancellable
  simp only [Sys.step] at hcancel
  split_ifs at hcancel with hlock
  obtain rfl := Option.some.inj hcancel
  set s₁ : Sys := { s with db := s.db.cancelTask taskId } with hs₁
  have hreach₁ : s₁.Reachable := h₁.reaches
  have htask : s₁.HasTask taskId := hasTask_of_core (Db.cancelTask_core _ _) ⟨row, hrow, hid⟩
  constructor
  · intro hfinal
    -- an execution would set the row to leased
    have hidle : ∀ s' queue e, s₁.Quietly s' → s'.Queued queue e → e.taskId ≠ taskId := by
      rintro s' queue e hquiet hqueued rfl
      obtain ⟨s'', hrun, row', hrow', hid', hleased⟩ := exists_leased_of_queued
        (custodyInv_of_reaches (h₁.trans hquiet.reaches)) hqueued
        (by rw [HasTask, hquiet.db]; exact htask) (by rw [Attempted, hquiet.db]; exact hnever)
      have hcancelled := (hfinal s'' (hquiet.reaches.trans hrun)).1 row' hrow' hid'
      simp [hleased] at hcancelled
    refine ⟨fun x hx hxid => ?_, fun post hpost hpostId => ?_⟩
    · have hqueued := queued_of_reaches h x.1 x.2 hx ⟨row, hrow, hid.trans hxid.symm, hstate⟩
      exact hidle s₁ x.1 x.2 ⟨.refl s₁, rfl, rfl⟩ hqueued hxid
    · have hcommitted : ¬ post.Uncommitted := fun hun =>
        hreach.enqueueInv.uncommitted post hpost hun row hrow (hid.trans hpostId.symm)
      by_contra hactive
      obtain ⟨s', queue, e, hquiet, hqueued, he⟩ := exists_queued_of_committed (s := s₁)
        hreach₁.enqueueInv (custodyInv_of_reaches h₁) hpost hcommitted hactive
      exact hidle s' queue e hquiet hqueued (he.trans hpostId)
  · intro hsilent s' hrun
    have hstays : s₁.StaysCancelled taskId :=
      hreach.staysCancelled_of_cancel hsilent ⟨row, hrow, hid, hstate⟩ fun effect heffect hown =>
        hnever (hown ▸ hattempted.effects effect heffect)
    have hlater := staysCancelled_of_reaches h₁ hstays hrun
    refine ⟨hlater.rows, fun job hjob hjobId => ?_, hlater.effects⟩
    exact absurd hjobId ((custodyInv_of_reaches (h₁.trans hrun)).no_job_of_silent hlater.silent
      job hjob)

instance (s : Sys) (taskId : Uuid) : Decidable (s.Cancellable taskId) :=
  inferInstanceAs (Decidable (∃ row ∈ s.db.tasks, _))

/-- The theorem at a task whose request failed on a `run_at` without a timezone: the row is
there, no message is, and the cancellation is final. -/
theorem cancel_final_iff_stranded : ∃ (s s₁ : Sys) (taskId : Uuid),
    Transition.ReachesWhen step WithoutRequeue init s ∧ s.Cancellable taskId ∧
    s.step (.cancel taskId) = some s₁ ∧
    ∀ s', Transition.ReachesWhen step WithoutRequeue s₁ s' →
      ∀ row ∈ s'.db.tasks, row.id = taskId → row.state = .cancelled := by
  obtain ⟨s, hreach, hcancellable, henqueued, hposts, hsome⟩ :=
    Transition.exists_reachesWhen_of_check step WithoutRequeue init
    (.post { queue := "q", taskName := "t", payload := .null, runAt := some ⟨10, none⟩ } ⟨1⟩ ::
      List.replicate 3 (.postStep 0 (.ok 0 0)))
    (fun s => s.Cancellable ⟨1⟩ ∧ s.enqueued = [] ∧ (∀ post ∈ s.posts, post.Ended) ∧
      (s.step (.cancel ⟨1⟩)).isSome) (by decide +kernel)
  obtain ⟨s₁, hs₁⟩ := Option.isSome_iff_exists.mp hsome
  have hsilent : s.Silent ⟨1⟩ := by
    refine ⟨by simp [henqueued], fun post hpost _ => Or.inl (hposts post hpost)⟩
  refine ⟨s, s₁, ⟨1⟩, hreach, hcancellable, hs₁, fun s' hrun => ?_⟩
  exact ((cancel_final_iff hreach ⟨1⟩ s₁ hcancellable hs₁).mpr hsilent s' hrun).1

/-- A task is cancelled before its message is delivered; the message is delivered, the
handler runs, and the effect is committed. -/
theorem cancelled_task_executed : ∃ s s' : Sys,
    Transition.ReachesWhen step WithoutRequeue init s ∧ s.Cancellable ⟨1⟩ ∧
    Transition.run step s ([.cancel ⟨1⟩, .deliver "a" 100 "q"] ++ proceeds 0 3 ++
      [.handler 0 (.returned none)] ++ proceeds 0 3) = some s' ∧
    s'.db.tasks.map TaskRow.state = [.succeeded] ∧ s'.db.effects.length = 1 ∧
    s'.jobs.map Job.started = [true] := by
  obtain ⟨s, hreach, hcancellable, hafter⟩ :=
    Transition.exists_reachesWhen_of_check step WithoutRequeue init
    (accept 0 { queue := "q", taskName := "t", payload := .null } ⟨1⟩)
    (fun s => s.Cancellable ⟨1⟩ ∧
      (Transition.run step s ([.cancel ⟨1⟩, .deliver "a" 100 "q"] ++ proceeds 0 3 ++
        [.handler 0 (.returned none)] ++ proceeds 0 3)).any fun s' =>
          s'.db.tasks.map TaskRow.state = [.succeeded] ∧ s'.db.effects.length = 1 ∧
            s'.jobs.map Job.started = [true]) (by decide +kernel)
  obtain ⟨s', hrun, hcheck⟩ := (Option.any_eq_true _ _).mp hafter
  exact ⟨s, s', hreach, hcancellable, hrun, of_decide_eq_true hcheck⟩

end Sys

end Dtq
