import Dtq.System.Moves

/-!
# Who created what

Every task comes from one request or one producer, because task ids are fresh. This file
keeps the books on the control plane: which request a task row belongs to, and which
envelope has been put on the broker for it. Whatever later happens to the row's state or
the envelope's attempt, everything else about them is as the request said.

## Main results

* `Sys.Moves.control_cases` — the control plane's share of a step
* `Sys.Reachable.enqueueInv` — rows and envelopes match the requests they come from
-/

set_option autoImplicit false

namespace Dtq

namespace Sys

variable {s s' : Sys} {a : Action}

/-- Seen from the control plane, a step is a move of one request, the arrival of one, an
envelope from another producer, or something that only updates states of tasks. -/
theorem Moves.control_cases (h : s.Moves a s') :
    (∃ i reply post out, a = .postStep i reply ∧
      (reply.applied = false → out.stores = s.stores) ∧ s.posts[i]? = some post ∧
      post.Moves s.stores s.waiting out ∧ s' = s.setPost i post out) ∨
    (∃ req taskId, a = .post req taskId ∧ s.Fresh taskId ∧
      s' = { s with posts := s.posts ++ [Post.begin req taskId] }) ∨
    (∃ queue envelope, s.Fresh envelope.taskId ∧ s'.posts = s.posts ∧
      s'.enqueued = s.enqueued ++ [(queue, envelope)] ∧ s'.db = s.db) ∨
    (s'.posts = s.posts ∧ s'.enqueued = s.enqueued ∧
      s'.db.tasks.map TaskRow.core = s.db.tasks.map TaskRow.core) := by
  cases h with
  | post ha hpost h => exact Or.inl ⟨_, _, _, _, rfl, ha, hpost, h, rfl⟩
  | posted hfresh => exact Or.inr (Or.inl ⟨_, _, rfl, hfresh, rfl⟩)
  | produced hfresh => exact Or.inr (Or.inr (Or.inl ⟨_, _, hfresh, rfl, rfl, rfl⟩))
  | job ha hjob h =>
    refine Or.inr (Or.inr (Or.inr ⟨rfl, rfl, ?_⟩))
    -- each of the three writes of a job is an update of the state
    obtain ⟨result, -, -, hmap⟩ | ⟨-, hsame | ⟨-, hmap⟩ | ⟨-, hmap⟩⟩ := h.tasks_cases
    case inr.inl => rw [setJob_db, hsame, stores_db]
    all_goals
      rw [setJob_db, hmap, stores_db, List.map_map]
      simp [Function.comp_def]
  | requeue ha hrequeue h =>
    refine Or.inr (Or.inr (Or.inr ⟨rfl, rfl, ?_⟩))
    rcases h.db_cases with hdb | hdb
    · rw [setRequeue_db, hdb, stores_db]
    · rw [setRequeue_db, hdb]
      exact (foldl_updateTaskState_frame _ _ _ _).2.2
  | cancelled => exact Or.inr (Or.inr (Or.inr ⟨rfl, rfl, Db.cancelTask_core _ _⟩))
  | delivered | adopted | requeued | leases | promoted =>
    exact Or.inr (Or.inr (Or.inr ⟨rfl, rfl, rfl⟩))

/-- A request after a step was there before, or has just drawn a fresh id. -/
theorem Moves.posts_cases (h : s.Moves a s') {post' : Post} (hpost' : post' ∈ s'.posts) :
    (∃ post ∈ s.posts, post.req = post'.req ∧ post.taskId = post'.taskId) ∨
      s.Fresh post'.taskId ∧ a = .post post'.req post'.taskId ∧
        s' = { s with posts := s.posts ++ [post'] } := by
  rcases h.control_cases with
    ⟨i, reply, post, out, -, -, hpost, hmove, rfl⟩ | ⟨req, taskId, rfl, hfresh, rfl⟩ |
      ⟨queue, envelope, -, hposts, -⟩ | ⟨hposts, -⟩
  · obtain ⟨hreq, hid⟩ := hmove.frame
    rcases List.mem_or_eq_of_mem_set hpost' with hold | rfl
    · exact Or.inl ⟨post', hold, rfl, rfl⟩
    · exact Or.inl ⟨post, List.mem_of_getElem? hpost, hreq.symm, hid.symm⟩
  · rcases List.mem_append.mp hpost' with hold | hnew
    · exact Or.inl ⟨post', hold, rfl, rfl⟩
    · obtain rfl := List.mem_singleton.mp hnew
      exact Or.inr ⟨hfresh, rfl, rfl⟩
  · exact Or.inl ⟨post', hposts ▸ hpost', rfl, rfl⟩
  · exact Or.inl ⟨post', hposts ▸ hpost', rfl, rfl⟩

/-- What a producer has put on record stays on record. -/
theorem Moves.enqueued_grow (h : s.Moves a s') : s.enqueued <+: s'.enqueued := by
  cases h with
  | post | produced => exact List.prefix_append _ _
  | job | delivered | adopted | posted | requeued | requeue | cancelled | leases | promoted =>
    exact List.prefix_refl _

/-- No request is forgotten. -/
theorem Moves.post_kept (h : s.Moves a s') {post : Post} (hpost : post ∈ s.posts) :
    ∃ post' ∈ s'.posts, post'.req = post.req ∧ post'.taskId = post.taskId := by
  rcases h.control_cases with
    ⟨i, reply, old, out, -, -, hold, hmove, rfl⟩ | ⟨req, taskId, -, hfresh, rfl⟩ |
      ⟨queue, envelope, -, hposts, -⟩ | ⟨hposts, -⟩
  · apply Indexed.exists_mem_set hold _ ⟨post, hpost, rfl, rfl⟩
    rintro ⟨hreq, hid⟩
    exact ⟨hmove.frame.1.trans hreq, hmove.frame.2.trans hid⟩
  · exact ⟨post, List.mem_append_left _ hpost, rfl, rfl⟩
  · exact ⟨post, hposts.symm ▸ hpost, rfl, rfl⟩
  · exact ⟨post, hposts.symm ▸ hpost, rfl, rfl⟩

/-- An id that is fresh after a step was fresh before it. -/
theorem Moves.fresh_of_fresh (h : s.Moves a s') {taskId : Uuid} (hfresh : s'.Fresh taskId) :
    s.Fresh taskId := by
  constructor
  · intro post hpost
    obtain ⟨post', hpost', -, hid⟩ := h.post_kept hpost
    exact hid ▸ hfresh.1 post' hpost'
  · exact fun x hx => hfresh.2 x (h.enqueued_grow.subset hx)

/-- A step keeps the untouched columns of all task rows, or commits the row of a request. -/
theorem Moves.rows_cases (h : s.Moves a s') :
    s'.db.tasks.map TaskRow.core = s.db.tasks.map TaskRow.core ∨
      ∃ i reply post, a = .postStep i reply ∧ reply.applied = true ∧
        s.posts[i]? = some post ∧ post.pc = .commit ∧
        s'.db.tasks = s.db.tasks ++ [post.req.row post.taskId] := by
  rcases h.control_cases with
    ⟨i, reply, post, out, rfl, happlied, hpost, hmove, rfl⟩ | ⟨req, taskId, -, -, rfl⟩ |
      ⟨queue, envelope, -, -, -, hdb⟩ | ⟨-, -, hsame⟩
  · rcases hmove.db_cases with hdb | ⟨hpc, hdb⟩
    · exact Or.inl (by rw [setPost_db, hdb, stores_db])
    · refine Or.inr ⟨i, reply, post, rfl, ?_, hpost, hpc, by rw [setPost_db, hdb]; rfl⟩
      cases hreply : reply.applied with
      | true => rfl
      | false =>
        -- without effect there is no new row
        have hlength := congrArg (fun stores : Stores => stores.db.tasks.length)
          (happlied hreply)
        simp [hdb, Db.insertTask] at hlength
  · exact Or.inl rfl
  · exact Or.inl (by rw [hdb])
  · exact Or.inl hsame

/-- Rows and envelopes match the requests they come from. -/
structure EnqueueInv (s : Sys) : Prop where
  /-- no two requests drew the same id -/
  distinct : Indexed.Apart (fun p p' : Post => p.taskId ≠ p'.taskId) s.posts
  /-- every row was committed by a request and keeps what the request said -/
  rows : ∀ row ∈ s.db.tasks, ∃ post ∈ s.posts, ¬ post.Uncommitted ∧
    row.core = (post.req.row post.taskId).core
  uncommitted : ∀ post ∈ s.posts, post.Uncommitted → ∀ row ∈ s.db.tasks, row.id ≠ post.taskId
  /-- a request that is not over has sent nothing -/
  unsent : ∀ post ∈ s.posts, ¬ post.Ended → ∀ x ∈ s.enqueued, x.2.taskId ≠ post.taskId
  publishes : ∀ post ∈ s.posts, ∀ envelope, post.pc = .publish envelope →
    ∃ now, envelope = post.req.envelope post.taskId now
  /-- an envelope of a request's task is the one the request built -/
  sent : ∀ x ∈ s.enqueued, ∀ post ∈ s.posts, post.taskId = x.2.taskId →
    x.1 = post.req.queue ∧ ∃ now, x.2 = post.req.envelope post.taskId now
  nodup : (s.enqueued.map fun x => x.2.taskId).Nodup

theorem enqueueInv_init : EnqueueInv init where
  distinct := Indexed.Apart.nil
  rows := by simp [init, Db.empty]
  uncommitted := by simp [init]
  unsent := by simp [init]
  publishes := by simp [init]
  sent := by simp [init]
  nodup := by simp [init]

/-- Rows belong to requests by their id. -/
theorem EnqueueInv.exists_post (h : s.EnqueueInv) {row : TaskRow} (hrow : row ∈ s.db.tasks) :
    ∃ post ∈ s.posts, ¬ post.Uncommitted ∧ post.taskId = row.id ∧
      row.core = (post.req.row post.taskId).core := by
  obtain ⟨post, hpost, hcommitted, hcore⟩ := h.rows row hrow
  have hid : row.core.id = (post.req.row post.taskId).core.id := by rw [hcore]
  exact ⟨post, hpost, hcommitted, hid.symm, hcore⟩

/-- The envelope a request hands over is built from its body. -/
theorem EnqueueInv.sent_envelope {i : ℕ} {post : Post} {out : Post.Outcome} (h : s.EnqueueInv)
    (hpost : s.posts[i]? = some post) (hmove : post.Moves s.stores s.waiting out)
    {envelope : TaskEnvelope} (hsent : out.sent = some envelope) :
    ∃ now, envelope = post.req.envelope post.taskId now := by
  obtain ⟨-, hnone⟩ | ⟨e, hsome, hfrom, -⟩ := hmove.sent_cases
  · simp [hnone] at hsent
  · obtain rfl : e = envelope := by simpa [hsome] using hsent
    rcases hfrom with ⟨now, -, heq⟩ | hpc
    · exact ⟨now, heq⟩
    · exact h.publishes post (List.mem_of_getElem? hpost) e hpc

section PostMove

variable {i : ℕ} {post : Post} {out : Post.Outcome}

/-- The only envelope that a request's move may put on record is its own. -/
theorem EnqueueInv.enqueued_post (h : s.EnqueueInv) (hpost : s.posts[i]? = some post)
    (hmove : post.Moves s.stores s.waiting out) :
    ∀ x ∈ (s.setPost i post out).enqueued, x ∈ s.enqueued ∨
      out.post.Ended ∧ x.1 = post.req.queue ∧ ∃ now, x.2 = post.req.envelope post.taskId now := by
  intro x hx
  rw [setPost_enqueued, List.mem_append] at hx
  rcases hx with hx | hx
  · exact Or.inl hx
  · cases hsent : out.sent with
    | none => simp [hsent] at hx
    | some envelope =>
      obtain rfl : x = (post.req.queue, envelope) := by simpa [hsent] using hx
      exact Or.inr ⟨hmove.ended_of_sent hsent, rfl, h.sent_envelope hpost hmove hsent⟩

/-- A row after a request's move was there, or the request has just committed its own. -/
theorem mem_tasks_post_cases (hmove : post.Moves s.stores s.waiting out) {row : TaskRow}
    (hrow : row ∈ (s.setPost i post out).db.tasks) :
    row ∈ s.db.tasks ∨ row = post.req.row post.taskId ∧ ¬ out.post.Uncommitted := by
  rcases hmove.db_cases with hdb | ⟨hpc, hdb⟩
  · rw [setPost_db, hdb] at hrow
    exact Or.inl hrow
  · rw [setPost_db, hdb] at hrow
    refine (List.mem_append.mp hrow).imp_right fun hnew => ⟨List.mem_singleton.mp hnew, ?_⟩
    intro hun
    -- a request that is still before its `COMMIT` has left the tables alone
    have hsame := (hmove.uncommitted_cases hun).2.1
    have hlength := congrArg (fun db : Db => db.tasks.length) (hsame.symm.trans hdb)
    simp [Db.insertTask] at hlength

theorem EnqueueInv.rows_post (h : s.EnqueueInv) (hpost : s.posts[i]? = some post)
    (hmove : post.Moves s.stores s.waiting out) :
    ∀ row ∈ (s.setPost i post out).db.tasks, ∃ p ∈ s.posts.set i out.post, ¬ p.Uncommitted ∧
      row.core = (p.req.row p.taskId).core := by
  obtain ⟨hreq, hid⟩ := hmove.frame
  intro row hrow
  rcases mem_tasks_post_cases hmove hrow with hold | ⟨rfl, hcommitted⟩
  · apply Indexed.exists_mem_set hpost _ (h.rows row hold)
    rintro ⟨hcommitted, hcore⟩
    refine ⟨fun hun => hcommitted (hmove.uncommitted_cases hun).1, ?_⟩
    rw [hreq, hid]
    exact hcore
  · refine ⟨out.post, List.mem_of_getElem? (Indexed.getElem?_set_of_eq hpost), hcommitted, ?_⟩
    rw [hreq, hid]

theorem EnqueueInv.uncommitted_post (h : s.EnqueueInv) (hpost : s.posts[i]? = some post)
    (hmove : post.Moves s.stores s.waiting out) :
    ∀ p ∈ s.posts.set i out.post, p.Uncommitted →
      ∀ row ∈ (s.setPost i post out).db.tasks, row.id ≠ p.taskId := by
  apply Indexed.forall_mem_set_of_ne
  · intro j other hj hother hun row hrow
    rcases mem_tasks_post_cases hmove hrow with hold | ⟨rfl, -⟩
    · exact h.uncommitted other (List.mem_of_getElem? hother) hun row hold
    · exact (h.distinct hother hpost hj).symm
  · intro hun
    obtain ⟨hbefore, hdb, -⟩ := hmove.uncommitted_cases hun
    rw [setPost_db, hdb, hmove.frame.2]
    exact h.uncommitted post (List.mem_of_getElem? hpost) hbefore

theorem EnqueueInv.unsent_post (h : s.EnqueueInv) (hpost : s.posts[i]? = some post)
    (hmove : post.Moves s.stores s.waiting out) :
    ∀ p ∈ s.posts.set i out.post, ¬ p.Ended →
      ∀ x ∈ (s.setPost i post out).enqueued, x.2.taskId ≠ p.taskId := by
  apply Indexed.forall_mem_set_of_ne
  · intro j other hj hother hactive x hx
    rcases h.enqueued_post hpost hmove x hx with hx | ⟨-, -, now, hx⟩
    · exact h.unsent other (List.mem_of_getElem? hother) hactive x hx
    · rw [hx]
      exact (h.distinct hother hpost hj).symm
  · intro hactive x hx
    rw [hmove.frame.2]
    rcases h.enqueued_post hpost hmove x hx with hx | ⟨hended, -⟩
    · exact h.unsent post (List.mem_of_getElem? hpost) hmove.not_ended x hx
    · exact absurd hended hactive

theorem EnqueueInv.sent_post (h : s.EnqueueInv) (hpost : s.posts[i]? = some post)
    (hmove : post.Moves s.stores s.waiting out) :
    ∀ x ∈ (s.setPost i post out).enqueued, ∀ p ∈ s.posts.set i out.post, p.taskId = x.2.taskId →
      x.1 = p.req.queue ∧ ∃ now, x.2 = p.req.envelope p.taskId now := by
  intro x hx
  apply Indexed.forall_mem_set_of_ne
  · intro j other hj hother heq
    rcases h.enqueued_post hpost hmove x hx with hx | ⟨-, -, now, hx⟩
    · exact h.sent x hx other (List.mem_of_getElem? hother) heq
    · rw [hx] at heq
      exact absurd heq (h.distinct hother hpost hj)
  · obtain ⟨hreq, hid⟩ := hmove.frame
    intro heq
    rw [hreq, hid]
    rcases h.enqueued_post hpost hmove x hx with hx | ⟨-, hqueue, hfrom⟩
    · exact h.sent x hx post (List.mem_of_getElem? hpost) (hid ▸ heq)
    · exact ⟨hqueue, hfrom⟩

theorem EnqueueInv.nodup_post (h : s.EnqueueInv) (hpost : s.posts[i]? = some post)
    (hmove : post.Moves s.stores s.waiting out) :
    ((s.setPost i post out).enqueued.map fun x => x.2.taskId).Nodup := by
  rw [setPost_enqueued]
  cases hsent : out.sent with
  | none => simpa using h.nodup
  | some envelope =>
    obtain ⟨now, rfl⟩ := h.sent_envelope hpost hmove hsent
    rw [Option.map_some, Option.toList_some, List.map_append, List.nodup_append]
    refine ⟨h.nodup, by simp, fun t ht t' ht' heq => ?_⟩
    obtain ⟨x, hx, rfl⟩ := List.mem_map.mp ht
    obtain rfl : t' = post.taskId := by simpa [CreateTaskRequest.envelope] using ht'
    exact h.unsent post (List.mem_of_getElem? hpost) hmove.not_ended x hx heq

end PostMove

/-- A move of one request keeps the books. -/
theorem EnqueueInv.post {i : ℕ} {post : Post} {out : Post.Outcome} (h : s.EnqueueInv)
    (hpost : s.posts[i]? = some post) (hmove : post.Moves s.stores s.waiting out) :
    (s.setPost i post out).EnqueueInv := by
  obtain ⟨hreq, hid⟩ := hmove.frame
  refine ⟨?_, h.rows_post hpost hmove, h.uncommitted_post hpost hmove,
    h.unsent_post hpost hmove, ?_, h.sent_post hpost hmove, h.nodup_post hpost hmove⟩
  · refine h.distinct.set_of_imp (fun _ _ hne => hne.symm) hpost fun p hne => ?_
    rw [hid]
    exact hne
  · apply Indexed.forall_mem_set h.publishes
    intro envelope hpc'
    obtain ⟨-, -, now, heq⟩ := hmove.publish_cases hpc'
    exact ⟨now, by rw [hreq, hid, heq]⟩

/-- A request that has just arrived holds nothing but its fresh id. -/
theorem EnqueueInv.posted {req : CreateTaskRequest} {taskId : Uuid} (h : s.EnqueueInv)
    (hfresh : s.Fresh taskId) :
    EnqueueInv { s with posts := s.posts ++ [Post.begin req taskId] } := by
  have hpc : ∀ envelope, (Post.begin req taskId).pc ≠ .publish envelope := by
    intro envelope
    simp only [Post.begin]
    split <;> simp
  refine ⟨?_, ?_, ?_, ?_, ?_, ?_, h.nodup⟩
  · apply h.distinct.append_singleton fun _ _ hne => hne.symm
    exact fun p hp => (hfresh.1 p hp).symm
  · intro row hrow
    obtain ⟨post, hpost, hrest⟩ := h.rows row hrow
    exact ⟨post, List.mem_append_left _ hpost, hrest⟩
  · apply Indexed.forall_mem_append_singleton h.uncommitted
    -- a row with this id would belong to an older request with this id
    intro _ row hrow heq
    obtain ⟨post, hpost, -, hid, -⟩ := h.exists_post hrow
    exact hfresh.1 post hpost (hid.trans heq)
  · apply Indexed.forall_mem_append_singleton h.unsent
    exact fun _ x hx => hfresh.2 x hx
  · apply Indexed.forall_mem_append_singleton h.publishes
    exact fun envelope heq => absurd heq (hpc envelope)
  · intro x hx
    apply Indexed.forall_mem_append_singleton (h.sent x hx)
    exact fun heq => absurd heq.symm (hfresh.2 x hx)

/-- An envelope from another producer belongs to no request. -/
theorem EnqueueInv.produced {queue : String} {envelope : TaskEnvelope} (h : s.EnqueueInv)
    (hfresh : s.Fresh envelope.taskId) (hposts : s'.posts = s.posts)
    (henqueued : s'.enqueued = s.enqueued ++ [(queue, envelope)]) (hdb : s'.db = s.db) :
    s'.EnqueueInv := by
  refine ⟨?_, ?_, ?_, ?_, ?_, ?_, ?_⟩ <;> simp only [hposts, henqueued, hdb]
  · exact h.distinct
  · exact h.rows
  · exact h.uncommitted
  · intro post hpost hactive
    apply Indexed.forall_mem_append_singleton (h.unsent post hpost hactive)
    exact (hfresh.1 post hpost).symm
  · exact h.publishes
  · apply Indexed.forall_mem_append_singleton h.sent
    exact fun post hpost heq => absurd heq (hfresh.1 post hpost)
  · rw [List.map_append, List.nodup_append]
    refine ⟨h.nodup, by simp, fun t ht t' ht' heq => ?_⟩
    obtain ⟨x, hx, rfl⟩ := List.mem_map.mp ht
    obtain rfl : t' = envelope.taskId := by simpa using ht'
    exact hfresh.2 x hx heq

theorem EnqueueInv.step (h : s.EnqueueInv) (hstep : s.step a = some s') : s'.EnqueueInv := by
  rcases (moves_of_step hstep).control_cases with
    ⟨i, reply, post, out, -, -, hpost, hmove, rfl⟩ | ⟨req, taskId, -, hfresh, rfl⟩ |
      ⟨queue, envelope, hfresh, hposts, henqueued, hdb⟩ | ⟨hposts, henqueued, hcore⟩
  · exact h.post hpost hmove
  · exact h.posted hfresh
  · exact h.produced hfresh hposts henqueued hdb
  · -- what is left changes states of tasks at most
    refine ⟨?_, ?_, ?_, ?_, ?_, ?_, ?_⟩ <;> simp only [hposts, henqueued]
    · exact h.distinct
    · refine Db.forall_core hcore (P := fun core => ∃ post ∈ s.posts, ¬ post.Uncommitted ∧
        core = (post.req.row post.taskId).core) h.rows
    · intro post hpost hun
      exact Db.forall_core hcore (P := fun core => core.id ≠ post.taskId)
        (h.uncommitted post hpost hun)
    · exact h.unsent
    · exact h.publishes
    · exact h.sent
    · exact h.nodup

/-- The books are right in every reachable state. -/
theorem Reachable.enqueueInv (h : s.Reachable) : s.EnqueueInv :=
  Transition.Reaches.invariant (fun _ _ _ hinv hstep => hinv.step hstep) h enqueueInv_init

end Sys

end Dtq
