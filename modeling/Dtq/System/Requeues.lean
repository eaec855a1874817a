import Dtq.System.Effects
import Dtq.System.Enqueue
import Dtq.System.Queues

/-!
# One effect over a task's whole life

The effect key of a task travels in its envelopes. Retries and adoptions copy it;
`requeue_dlq` builds a fresh envelope without a dedup key, so that from then on the task
runs under the text of its id. If the earlier life of the task has committed an effect
under its dedup key, or can still commit one, there may be two effects in the end.

A key is *live* for a task if an effect of the task is committed under it, or something
that may commit one is under way: an entry that will be delivered, an execution, a request
that has not sent its envelope. New live keys come from new tasks and from requeues only.

## Main results

* `Sys.Moves.live_cases` — where a live key comes from
* `Sys.one_effect_per_task` — one effect per task, if requeues publish only when no other
  key is live
* `Sys.requeuesSettled_of_keyless` — tasks without a dedup key may be requeued at any time
* `Sys.two_effects` — a requeue that doubles an effect
-/

set_option autoImplicit false

namespace Dtq

namespace QueueState

/-- The queue will hand the envelope out: it is undelivered, or pending, or scheduled. -/
def Offers (q : QueueState) (e : TaskEnvelope) : Prop :=
  (∃ k, q.delivered ≤ k ∧ q.stream[k]? = some e) ∨
    (∃ p ∈ q.pending, q.stream[p.id]? = some e) ∨ ∃ m ∈ q.sched, m.1 = e

variable {q q' : QueueState} {e e' : TaskEnvelope}

/-- An entry of a stream that was extended is an old one at the same place, or one of the
new ones. -/
theorem offers_of_append {rest : List TaskEnvelope} (hoffers : q'.Offers e)
    (hstream : q'.stream = q.stream ++ rest) (hdelivered : q'.delivered = q.delivered)
    (hpending : q'.pending = q.pending) :
    q.Offers e ∨ e ∈ rest ∨ ∃ m ∈ q'.sched, m.1 = e := by
  have hentry : ∀ {k : ℕ}, q'.stream[k]? = some e → q.stream[k]? = some e ∨ e ∈ rest := by
    intro k hk
    rw [hstream] at hk
    by_cases hlt : k < q.stream.length
    · rw [List.getElem?_append_left hlt] at hk
      exact Or.inl hk
    · rw [List.getElem?_append_right (Nat.not_lt.mp hlt)] at hk
      exact Or.inr (List.mem_of_getElem? hk)
  rcases hoffers with ⟨k, hk, he⟩ | ⟨p, hp, he⟩ | hsched
  · rcases hentry he with hold | hnew
    · exact Or.inl (Or.inl ⟨k, hdelivered ▸ hk, hold⟩)
    · exact Or.inr (Or.inl hnew)
  · rcases hentry he with hold | hnew
    · exact Or.inl (Or.inr (Or.inl ⟨p, hpending ▸ hp, hold⟩))
    · exact Or.inr (Or.inl hnew)
  · exact Or.inr (Or.inr hsched)

theorem Added.offers (h : q.Added e' q') (hoffers : q'.Offers e) : q.Offers e ∨ e = e' := by
  cases h with
  | published =>
    rcases offers_of_append (q := q) hoffers rfl rfl rfl with hold | hnew | hsched
    · exact Or.inl hold
    · exact Or.inr (List.mem_singleton.mp hnew)
    · exact Or.inl (Or.inr (Or.inr hsched))
  | scheduled runAt =>
    rcases hoffers with hstream | hpending | ⟨m, hm, rfl⟩
    · exact Or.inl (Or.inl hstream)
    · exact Or.inl (Or.inr (Or.inl hpending))
    · rcases mem_zadd.mp hm with rfl | ⟨hm, -⟩
      · exact Or.inr rfl
      · exact Or.inl (Or.inr (Or.inr ⟨m, hm, rfl⟩))

theorem offers_of_offers_promoteScheduled {now : ℚ}
    (h : (q.promoteScheduled now).Offers e) : q.Offers e := by
  rw [promoteScheduled_eq] at h
  rcases offers_of_append (q := q) h rfl rfl rfl with hold | hnew | ⟨m, hm, rfl⟩
  · exact hold
  · obtain ⟨score, hscore⟩ := mem_sched_of_mem_due hnew
    exact Or.inr (Or.inr ⟨_, hscore, rfl⟩)
  · exact Or.inr (Or.inr ⟨m, (List.mem_filter.mp hm).1, rfl⟩)

end QueueState

/-- The envelope a requeue request is about to publish. -/
def Requeue.publishing (requeue : Requeue) : Option TaskEnvelope :=
  match requeue.pc with
  | .publish e _ => some e
  | _ => none

namespace Sys

variable {s s' : Sys} {a : Action}

/-- Where an envelope that a queue offers comes from: it was on offer, a producer or a
requeue request has put it there, or it is the retry of a job. -/
theorem Moves.offers_cases (h : s.Moves a s') {queue : String} {e : TaskEnvelope}
    (hoffers : (s'.redis.queues queue).Offers e) :
    (s.redis.queues queue).Offers e ∨
      s.HandsOver e ∨
      (s.Fresh e.taskId ∧ ∃ runAt, a = .produce queue e runAt) ∨
      (∃ i reply requeue rest, a = .requeueStep i reply ∧ reply.applied = true ∧
        s.requeues[i]? = some requeue ∧ requeue.pc = .publish e rest) ∨
      ∃ job ∈ s.jobs, job.Active ∧ e = job.envelope.nextAttempt := by
  have hmoves := h.queue_cases queue
  generalize s'.redis.queues queue = q' at hmoves hoffers
  cases hmoves with
  | same | deadLettered => exact Or.inl hoffers
  | enqueued hadded henqueued hfrom =>
    rcases hadded.offers hoffers with hold | rfl
    · exact Or.inl hold
    · rcases hfrom with hpost | hproduce
      · exact Or.inr (Or.inl hpost)
      · exact Or.inr (Or.inr (Or.inl hproduce))
  | requeued ha happlied hrequeue hqueue hpc =>
    rcases QueueState.Added.published.offers hoffers with hold | rfl
    · exact Or.inl hold
    · exact Or.inr (Or.inr (Or.inr (Or.inl ⟨_, _, _, _, ha, happlied, hrequeue, hpc⟩)))
  | delivered hjob hjobs hmsg hentry =>
    left
    rcases hoffers with ⟨k, hk, he⟩ | ⟨p, hp, he⟩ | hsched
    · exact Or.inl ⟨k, Nat.le_of_succ_le hk, he⟩
    · rcases List.mem_append.mp hp with hold | hnew
      · exact Or.inr (Or.inl ⟨p, hold, he⟩)
      · -- the entry that has just been handed out was the next one
        obtain rfl := List.mem_singleton.mp hnew
        exact Or.inl ⟨_, le_rfl, he⟩
    · exact Or.inr (Or.inr hsched)
  | adopted =>
    left
    rcases hoffers with hstream | ⟨p, hp, he⟩ | hsched
    · exact Or.inl hstream
    · obtain ⟨old, hold, rfl⟩ := List.mem_map.mp hp
      refine Or.inr (Or.inl ⟨old, hold, ?_⟩)
      split at he <;> exact he
    · exact Or.inr (Or.inr hsched)
  | acked =>
    left
    rcases hoffers with hstream | ⟨p, hp, he⟩ | hsched
    · exact Or.inl hstream
    · exact Or.inr (Or.inl ⟨p, (List.mem_filter.mp hp).1, he⟩)
    · exact Or.inr (Or.inr hsched)
  | retried hjob hqueue hpc hretry =>
    rcases (QueueState.Added.scheduled _).offers hoffers with hold | rfl
    · exact Or.inl hold
    · exact Or.inr (Or.inr (Or.inr (Or.inr ⟨_, hjob, by simp [Job.Active, hpc], rfl⟩)))
  | promoted => exact Or.inl (QueueState.offers_of_offers_promoteScheduled hoffers)

/-! ### Live keys -/

/-- An effect of the task is committed under the key, or may still be. -/
inductive Live (s : Sys) (taskId : Uuid) : String → Prop
  | offered {queue : String} {e : TaskEnvelope} (hoffers : (s.redis.queues queue).Offers e)
      (hid : e.taskId = taskId) : Live s taskId e.effectKey
  | running {job : Job} (hjob : job ∈ s.jobs) (hactive : job.Active)
      (hid : job.envelope.taskId = taskId) : Live s taskId job.key
  | posting {post : Post} (hpost : post ∈ s.posts) (hactive : ¬ post.Ended)
      (hid : post.taskId = taskId) :
      Live s taskId (TaskEnvelope.keyOr post.req.dedupKey post.taskId)
  | committed {row : EffectRow} (hrow : row ∈ s.db.effects) (hid : row.taskId = taskId) :
      Live s taskId row.dedupKey

/-- The task that an action creates, and its effect key. -/
def newKey : Action → Option (Uuid × String)
  | .post req taskId => some (taskId, TaskEnvelope.keyOr req.dedupKey taskId)
  | .produce _ e _ => some (e.taskId, e.effectKey)
  | _ => none

/-- The action makes a requeue request publish this envelope. -/
def Publishes (s : Sys) (a : Action) (e : TaskEnvelope) : Prop :=
  ∃ i reply requeue rest, a = .requeueStep i reply ∧ reply.applied = true ∧
    s.requeues[i]? = some requeue ∧ requeue.pc = .publish e rest

variable {taskId : Uuid} {key : String}

/-- What a request hands over has its live key. -/
theorem HandsOver.live {e : TaskEnvelope} (h : s.HandsOver e) (hbooks : s.EnqueueInv) :
    s.Live e.taskId e.effectKey := by
  obtain ⟨i, post, out, hpost, hmove, hsent⟩ := h
  obtain ⟨now, rfl⟩ := hbooks.sent_envelope hpost hmove hsent
  exact .posting (List.mem_of_getElem? hpost) hmove.not_ended rfl

/-- An execution after a step was there before, or works on an entry that was offered. -/
theorem Moves.running_cases (h : s.Moves a s') {job' : Job} (hjob' : job' ∈ s'.jobs)
    (hactive : job'.Active) : s.Live job'.envelope.taskId job'.key := by
  have hold : ∀ job ∈ s.jobs, job.Active → s.Live job.envelope.taskId job.key :=
    fun job hjob hactive => .running hjob hactive rfl
  cases h with
  | job ha hjob hmove =>
    refine Indexed.forall_mem_set hold (fun _ => ?_) job' hjob' hactive
    rw [hmove.key_eq, hmove.taskId_eq]
    exact hold _ (List.mem_of_getElem? hjob) hmove.active
  | delivered hentry =>
    refine Indexed.forall_mem_append_singleton hold (fun _ => ?_) job' hjob' hactive
    exact .offered (Or.inl ⟨_, le_rfl, hentry⟩) rfl
  | adopted hpending hentry =>
    -- the envelope the reclaim loop passes on differs in the attempt only
    refine Indexed.forall_mem_append_singleton hold (fun _ => ?_) job' hjob' hactive
    obtain ⟨p, hp, rfl⟩ := hpending
    exact .offered (Or.inr (Or.inl ⟨p, hp, hentry⟩)) rfl
  | post | posted | produced | requeued | requeue | cancelled | leases | promoted =>
    exact hold job' hjob' hactive

/-- A request after a step was there before, or has just arrived. -/
theorem Moves.posting_cases (h : s.Moves a s') {post' : Post} (hpost' : post' ∈ s'.posts)
    (hactive : ¬ post'.Ended) :
    s.Live post'.taskId (TaskEnvelope.keyOr post'.req.dedupKey post'.taskId) ∨
      s.Fresh post'.taskId ∧
        newKey a = some (post'.taskId, TaskEnvelope.keyOr post'.req.dedupKey post'.taskId) := by
  have hold : ∀ post ∈ s.posts, ¬ post.Ended →
      s.Live post.taskId (TaskEnvelope.keyOr post.req.dedupKey post.taskId) :=
    fun post hpost hactive => .posting hpost hactive rfl
  rcases h.control_cases with
    ⟨i, reply, post, out, -, -, hpost, hmove, rfl⟩ | ⟨req, taskId, rfl, hfresh, rfl⟩ |
      ⟨queue, envelope, -, hposts, -⟩ | ⟨hposts, -⟩
  · left
    refine Indexed.forall_mem_set hold (fun _ => ?_) post' hpost' hactive
    rw [hmove.frame.1, hmove.frame.2]
    exact hold post (List.mem_of_getElem? hpost) hmove.not_ended
  · rcases List.mem_append.mp hpost' with hmem | hnew
    · exact Or.inl (hold post' hmem hactive)
    · obtain rfl := List.mem_singleton.mp hnew
      exact Or.inr ⟨hfresh, rfl⟩
  · exact Or.inl (hold post' (hposts ▸ hpost') hactive)
  · exact Or.inl (hold post' (hposts ▸ hpost') hactive)

/-- A live key was live before, or belongs to a task that is new, or a requeue request has
just published an envelope with it. -/
theorem Moves.live_cases (h : s.Moves a s') (hbooks : s.EnqueueInv)
    (hlive : s'.Live taskId key) :
    s.Live taskId key ∨ (s.Fresh taskId ∧ newKey a = some (taskId, key)) ∨
      ∃ e, s.Publishes a e ∧ e.taskId = taskId ∧ e.effectKey = key := by
  cases hlive with
  | offered hoffers hid =>
    subst hid
    rcases h.offers_cases hoffers with
      hold | hhands | ⟨hfresh, runAt, rfl⟩ | hpublishes | ⟨job, hjob, hactive, rfl⟩
    · exact Or.inl (.offered hold rfl)
    · exact Or.inl (hhands.live hbooks)
    · exact Or.inr (Or.inl ⟨hfresh, rfl⟩)
    · exact Or.inr (Or.inr ⟨_, hpublishes, rfl, rfl⟩)
    · exact Or.inl (.running hjob hactive rfl)
  | running hjob hactive hid => exact Or.inl (hid ▸ h.running_cases hjob hactive)
  | posting hpost hactive hid =>
    subst hid
    rcases h.posting_cases hpost hactive with hold | hnew
    · exact Or.inl hold
    · exact Or.inr (Or.inl hnew)
  | committed hrow hid =>
    left
    subst hid
    rcases h.worker_cases with
      ⟨i, job, job', stores', -, hjob, hmove, rfl⟩ | ⟨job, -, -, hdb, -⟩ | ⟨-, heffects, -⟩
    · rcases hmove.mem_effects_cases hrow with hold | ⟨result, -, -, rfl⟩
      · exact .committed hold rfl
      · -- the execution that commits was live under its key
        exact .running (List.mem_of_getElem? hjob) hmove.active rfl
    · exact .committed (hdb ▸ hrow) rfl
    · exact .committed (heffects ▸ hrow) rfl

/-- The task an action creates is known afterwards. -/
theorem Moves.not_fresh_of_newKey (h : s.Moves a s') (hnew : newKey a = some (taskId, key)) :
    ¬ s'.Fresh taskId := by
  intro hfresh
  cases h with
  | posted =>
    simp only [newKey, Option.some.injEq, Prod.mk.injEq] at hnew
    exact hfresh.1 _ (List.mem_append_right _ (List.mem_singleton.mpr rfl)) hnew.1
  | produced =>
    simp only [newKey, Option.some.injEq, Prod.mk.injEq] at hnew
    exact hfresh.2 _ (List.mem_append_right _ (List.mem_singleton.mpr rfl)) hnew.1
  | job ha => rcases ha with ⟨reply, rfl, -⟩ | ⟨⟨outcome, rfl⟩, -⟩ <;> simp [newKey] at hnew
  | leases ha => rcases ha with ⟨i, rfl⟩ | ⟨text, rfl⟩ <;> simp [newKey] at hnew
  | delivered | adopted | post | requeued | requeue | cancelled | promoted =>
    simp [newKey] at hnew

/-- What is known of live keys in every reachable state. -/
structure LiveInv (s : Sys) : Prop where
  known : ∀ taskId key, s.Live taskId key → ¬ s.Fresh taskId
  /-- a requeue request publishes a task of a request under the text of its id -/
  publishes : ∀ requeue ∈ s.requeues, ∀ e rest, requeue.pc = .publish e rest →
    e.effectKey = e.taskId.str ∧ ∃ post ∈ s.posts, post.taskId = e.taskId
  /-- there are at most two keys: the one of the request and the text of the id -/
  keys : ∀ post ∈ s.posts, ∀ key, s.Live post.taskId key →
    key = TaskEnvelope.keyOr post.req.dedupKey post.taskId ∨ key = post.taskId.str

theorem liveInv_init : LiveInv init where
  known := by
    rintro taskId key ⟨⟩ <;> simp_all [init, Redis.empty, Db.empty, QueueState.Offers]
  publishes := by simp [init]
  keys := by simp [init]

theorem LiveInv.of_publishes {e : TaskEnvelope} (h : s.LiveInv) (hpublishes : s.Publishes a e) :
    e.effectKey = e.taskId.str ∧ ∃ post ∈ s.posts, post.taskId = e.taskId := by
  obtain ⟨i, reply, requeue, rest, -, -, hrequeue, hpc⟩ := hpublishes
  exact h.publishes requeue (List.mem_of_getElem? hrequeue) e rest hpc

theorem LiveInv.publishes_step (h : s.LiveInv) (hbooks : s.EnqueueInv) (hmoves : s.Moves a s') :
    ∀ requeue ∈ s'.requeues, ∀ e rest, requeue.pc = .publish e rest →
      e.effectKey = e.taskId.str ∧ ∃ post ∈ s'.posts, post.taskId = e.taskId := by
  have hold : ∀ requeue ∈ s.requeues, ∀ e rest, requeue.pc = .publish e rest →
      e.effectKey = e.taskId.str ∧ ∃ post ∈ s'.posts, post.taskId = e.taskId := by
    intro requeue hrequeue e rest hpc
    obtain ⟨hkey, post, hpost, hid⟩ := h.publishes requeue hrequeue e rest hpc
    obtain ⟨post', hpost', -, hid'⟩ := hmoves.post_kept hpost
    exact ⟨hkey, post', hpost', hid'.trans hid⟩
  cases hmoves with
  | requeued => exact Indexed.forall_mem_append_singleton hold (by simp)
  | requeue ha hrequeue hmove =>
    apply Indexed.forall_mem_set hold
    intro e rest hpc'
    -- the envelope was built from a row, and the row belongs to a request
    obtain ⟨taskId, row, now, hfound, rfl, -⟩ := hmove.publish_cases hpc'
    obtain ⟨post, hpost, -, hid, -⟩ := hbooks.exists_post (List.mem_of_find?_eq_some hfound)
    exact ⟨rfl, post, hpost, hid⟩
  | job | delivered | adopted | post | posted | produced | cancelled | leases | promoted =>
    exact hold

theorem LiveInv.step (h : s.LiveInv) (hbooks : s.EnqueueInv) (hstep : s.step a = some s') :
    s'.LiveInv := by
  have hmoves := moves_of_step hstep
  refine ⟨?_, h.publishes_step hbooks hmoves, ?_⟩
  · intro taskId key hlive hfresh
    rcases hmoves.live_cases hbooks hlive with hold | ⟨-, hnew⟩ | ⟨e, hpublishes, rfl, -⟩
    · exact h.known taskId key hold (hmoves.fresh_of_fresh hfresh)
    · exact hmoves.not_fresh_of_newKey hnew hfresh
    · obtain ⟨-, post, hpost, hid⟩ := h.of_publishes hpublishes
      exact (hmoves.fresh_of_fresh hfresh).1 post hpost hid
  · intro post' hpost' key hlive
    rcases hmoves.live_cases hbooks hlive with hold | ⟨hfresh, hnew⟩ | ⟨e, hpublishes, hid, rfl⟩
    · rcases hmoves.posts_cases hpost' with ⟨post, hpost, hreq, hid⟩ | ⟨hfresh, -⟩
      · rw [← hreq, ← hid]
        exact h.keys post hpost key (hid ▸ hold)
      · exact absurd hfresh (h.known _ _ hold)
    · rcases hmoves.posts_cases hpost' with ⟨post, hpost, -, hid⟩ | ⟨-, rfl, -⟩
      · exact absurd hid (hfresh.1 post hpost)
      · simp only [newKey, Option.some.injEq, Prod.mk.injEq, true_and] at hnew
        exact Or.inl hnew.symm
    · right
      rw [(h.of_publishes hpublishes).1, hid]

theorem Reachable.liveInv (h : s.Reachable) : s.LiveInv := by
  apply Transition.ReachesWhen.invariant_along (I := LiveInv) h liveInv_init
  intro s a s' hrun hinv _ hstep
  have hreach : s.Reachable := hrun
  exact hinv.step hreach.enqueueInv hstep

/-! ### Requeues that do not double an effect -/

/-- A requeue request publishes a task only when no key but the one it publishes it under
is live for the task. -/
def RequeuesSettled (s : Sys) (a : Action) : Prop :=
  ∀ e, s.Publishes a e → ∀ key, s.Live e.taskId key → key = e.effectKey

/-- No two keys are live for one task. -/
def OneKey (s : Sys) : Prop :=
  ∀ taskId key key', s.Live taskId key → s.Live taskId key' → key = key'

theorem OneKey.step (h : s.OneKey) (hinv : s.LiveInv) (hbooks : s.EnqueueInv)
    (ha : RequeuesSettled s a) (hstep : s.step a = some s') : s'.OneKey := by
  intro taskId key key' hlive hlive'
  have hmoves := moves_of_step hstep
  by_cases hfresh : s.Fresh taskId
  · -- a new task has the key it was created with
    have hnew : ∀ key, s'.Live taskId key → newKey a = some (taskId, key) := by
      intro key hlive
      rcases hmoves.live_cases hbooks hlive with hold | ⟨-, hnew⟩ | ⟨e, hpublishes, rfl, -⟩
      · exact absurd hfresh (hinv.known taskId key hold)
      · exact hnew
      · obtain ⟨-, post, hpost, hid⟩ := hinv.of_publishes hpublishes
        exact absurd hid (hfresh.1 post hpost)
    have heq := (hnew key hlive).symm.trans (hnew key' hlive')
    simpa using heq
  · have hold : ∀ key, s'.Live taskId key →
        s.Live taskId key ∨ ∃ e, s.Publishes a e ∧ e.taskId = taskId ∧ e.effectKey = key := by
      intro key hlive
      rcases hmoves.live_cases hbooks hlive with hold | ⟨hnew, -⟩ | hpublishes
      · exact Or.inl hold
      · exact absurd hnew hfresh
      · exact Or.inr hpublishes
    -- where the two keys come from: both old, both published, or one of each
    rcases hold key hlive with hkey | ⟨e, hpublishes, rfl, rfl⟩
    · rcases hold key' hlive' with hkey' | ⟨e, hpublishes, rfl, rfl⟩
      · exact h taskId key key' hkey hkey'
      · exact ha e hpublishes key hkey
    · rcases hold key' hlive' with hkey' | ⟨e', hpublishes', hid, rfl⟩
      · exact (ha e hpublishes key' hkey').symm
      · rw [(hinv.of_publishes hpublishes).1, (hinv.of_publishes hpublishes').1, hid]

/-- **One effect per task over its whole life**, as long as every requeue finds its task
settled. In every run with any number of requeues, retries, adoptions and duplicate
deliveries, in which a requeue request publishes a task only when no effect of it is
committed under another key and nothing under another key may still commit one: the table
of effects never holds two rows of one task. -/
theorem one_effect_per_task (h : Transition.ReachesWhen step RequeuesSettled init s) :
    (s.db.effects.map EffectRow.taskId).Nodup := by
  have hreach : s.Reachable := h.reaches
  have hkeys : s.OneKey := by
    apply h.invariant_along (I := OneKey)
    · exact fun taskId key _ hlive => absurd ⟨by simp [init], by simp [init]⟩
        (liveInv_init.known taskId key hlive)
    · intro s a s' hrun hkeys ha hstep
      have hbefore : s.Reachable := hrun.reaches
      exact hkeys.step hbefore.liveInv hbefore.enqueueInv ha hstep
  rw [List.Nodup, List.pairwise_map]
  have hnodup := hreach.effectInv.keys
  rw [List.Nodup, List.pairwise_map] at hnodup
  -- two rows of one task would have the same key, and keys are unique
  refine hnodup.imp_of_mem fun hx hy hne hid => hne ?_
  exact hkeys _ _ _ (.committed hx hid) (.committed hy rfl)

/-- A requeue request publishes only tasks that were created without a dedup key. -/
def RequeuesKeyless (s : Sys) (a : Action) : Prop :=
  match a with
  | .requeueStep i reply => reply.applied = true → ∀ requeue ∈ s.requeues[i]?,
      ∀ e ∈ requeue.publishing, ∀ post ∈ s.posts, post.taskId = e.taskId →
        TaskEnvelope.keyOr post.req.dedupKey post.taskId = post.taskId.str
  | _ => True

instance (s : Sys) : DecidablePred (RequeuesKeyless s)
  | .requeueStep i reply => inferInstanceAs (Decidable (reply.applied = true →
      ∀ requeue ∈ s.requeues[i]?, ∀ e ∈ requeue.publishing, ∀ post ∈ s.posts,
        post.taskId = e.taskId →
          TaskEnvelope.keyOr post.req.dedupKey post.taskId = post.taskId.str))
  | .requeue _ _ | .cancel _ | .post _ _ | .postStep _ _ | .produce _ _ _ | .jobStep _ _
  | .deliver _ _ _ | .adopt _ _ _ _ | .handler _ _ | .heartbeat _ | .promote _ _ | .expire _ =>
    isTrue trivial

/-- A task without a dedup key has one key for life, and may be requeued at any time. -/
theorem requeuesSettled_of_keyless (h : s.LiveInv) (ha : RequeuesKeyless s a) :
    RequeuesSettled s a := by
  intro e hpublishes key hlive
  obtain ⟨hkey, post, hpost, hid⟩ := h.of_publishes hpublishes
  obtain ⟨i, reply, requeue, rest, rfl, happlied, hrequeue, hpc⟩ := hpublishes
  have hsame := ha happlied requeue hrequeue e (by simp [Requeue.publishing, hpc]) post hpost hid
  rw [hkey, ← hid]
  rcases h.keys post hpost key (hid ▸ hlive) with hown | htext
  · exact hown.trans hsame
  · exact htext

/-- A task is executed and acknowledged, and requeued afterwards. The attempt number starts
again at one, which is taken: the first delivery fails, its retry is delivered and runs the
handler again. -/
def requeuedAfterSuccess (dedupKey : Option String) : List Action :=
  accept 0 { queue := "q", taskName := "t", payload := .null, dedupKey := dedupKey } ⟨1⟩ ++
    [.deliver "a" 100 "q"] ++ proceeds 0 3 ++ [.handler 0 (.returned none)] ++ proceeds 0 5 ++
    .requeue "q" [⟨1⟩] :: List.replicate 3 (.requeueStep 0 (.ok 0 0)) ++
    [.deliver "a" 100 "q", .jobStep 1 (.ok 0 0), .jobStep 1 (.raise false 0 0 "duplicate key")] ++
    proceeds 1 3 ++ [.promote "q" 1, .deliver "a" 100 "q"] ++ proceeds 2 3 ++
    [.handler 2 (.returned none)] ++ proceeds 2 2

/-- The theorem at a task without a dedup key: it is requeued after its success, and its
second execution finds the effect of the first one. -/
theorem one_effect_per_task_requeued : ∃ s : Sys, s.db.effects.length = 1 ∧
    (∃ job ∈ s.jobs, job.committed = false ∧ job.pc.Succeeds) ∧
    (s.db.effects.map EffectRow.taskId).Nodup := by
  obtain ⟨s, hreach, hlength, hjob⟩ := Transition.exists_reachesWhen_of_check step
    RequeuesKeyless init (requeuedAfterSuccess none)
    (fun s => s.db.effects.length = 1 ∧ ∃ job ∈ s.jobs, job.committed = false ∧
      job.pc = .execute (.releaseLease true none))
    (by decide +kernel)
  obtain ⟨job, hmem, hcommitted, hpc⟩ := hjob
  refine ⟨s, hlength, ⟨job, hmem, hcommitted, by simp [hpc, Pc.Succeeds]⟩, ?_⟩
  apply one_effect_per_task
  apply hreach.mono_along
  intro u a hrun hkeyless
  have hbefore : u.Reachable := hrun.reaches
  exact requeuesSettled_of_keyless hbefore.liveInv hkeyless

/-- A requeue that doubles an effect: the first execution commits under the dedup key, the
one after the requeue under the text of the task's id. -/
theorem two_effects : ∃ s : Sys, s.Reachable ∧
    ∃ row row', s.db.effects = [row, row'] ∧ row.taskId = row'.taskId := by
  obtain ⟨s, hrun, hlength, hids⟩ := Transition.exists_run_of_check step init
    (requeuedAfterSuccess (some "k") ++ proceeds 2 1)
    (fun s => s.db.effects.length = 2 ∧ s.db.effects.map EffectRow.taskId = [⟨1⟩, ⟨1⟩])
    (by decide +kernel)
  obtain ⟨row, row', heffects⟩ := List.length_eq_two.mp hlength
  refine ⟨s, .of_run hrun, row, row', heffects, ?_⟩
  simp only [heffects, List.map_cons, List.map_nil, List.cons.injEq, and_true] at hids
  exact hids.1.trans hids.2.symm

end Sys

end Dtq
