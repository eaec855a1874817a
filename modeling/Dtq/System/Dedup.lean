import Dtq.System.Intake

/-!
# Enqueueing with a dedup key

`create_task` looks for a row with the queue and the key, and inserts one when it finds
none. The two statements are not atomic, and an empty key is not looked for at all; what
is left to the unique index then is to refuse the second row, which fails the request.

So requests with one queue and key are idempotent when they take turns: no lookup happens
while another request is between its lookup and its `COMMIT`.

## Main results

* `Sys.dedup_idempotent_of_turns` — requests that take turns create one task
* `Sys.Refused.step` — a request out of turn is refused for good
-/

set_option autoImplicit false

namespace Dtq

namespace CreateTaskRequest

/-- The request asks for this queue and dedup key. -/
def OfPair (req : CreateTaskRequest) (queue key : String) : Prop :=
  req.queue = queue ∧ req.dedupKey = some key

instance (req : CreateTaskRequest) (queue key : String) : Decidable (req.OfPair queue key) :=
  inferInstanceAs (Decidable (_ ∧ _))

/-- A request whose columns are in range and whose `run_at` can be compared: nothing but
the dedup index can refuse it. -/
def Creatable (req : CreateTaskRequest) : Prop :=
  (∀ taskId, Db.Fits (req.row taskId)) ∧ req.comparable = true

instance (req : CreateTaskRequest) : Decidable req.Creatable :=
  decidable_of_iff (Db.Fits (req.row ⟨0⟩) ∧ req.comparable = true)
    (and_congr_left' ⟨fun h _ => h, fun h => h ⟨0⟩⟩)

theorem looksUp_eq (req : CreateTaskRequest) {queue key : String} (h : req.OfPair queue key) :
    req.looksUp = if key = "" then none else some key := by
  simp only [looksUp, h.2]

end CreateTaskRequest

/-- The call returns. -/
def Reply.returns : Reply → Bool
  | .ok _ _ => true
  | .raise _ _ _ _ | .crash => false

theorem Reply.eq_ok_of_returns {reply : Reply} (h : reply.returns = true) :
    ∃ now draw, reply = .ok now draw := by
  cases reply with
  | ok now draw => exact ⟨now, draw, rfl⟩
  | raise | crash => simp [Reply.returns] at h

namespace Post

/-- The request has found no row and has not committed its own. -/
def InWindow (post : Post) : Prop := post.pc = .insert ∨ post.pc = .commit

instance (post : Post) : Decidable post.InWindow := inferInstanceAs (Decidable (_ ∨ _))

/-- A request gets between lookup and `COMMIT` by a lookup that finds nothing. -/
theorem Moves.inWindow_cases {stores : Stores} {waiting : List TaskRow} {post : Post}
    {out : Outcome} (h : post.Moves stores waiting out) (hin : out.post.InWindow) :
    post.InWindow ∨ ∃ key, post.pc = .select key := by
  cases h with
  | proceeds h =>
    cases h with
    | notFound key hpc => exact Or.inr ⟨key, hpc⟩
    | inserted hpc => exact Or.inl (Or.inl hpc)
    | _ => simp [InWindow, goto, created] at hin
  | abortedAfter | aborted => simp [InWindow, goto] at hin

end Post

namespace Sys

variable {s s' : Sys} {a : Action} {queue key : String}

/-- The ids of the task rows with this queue and dedup key. -/
def pairIds (s : Sys) (queue key : String) : List Uuid :=
  (s.db.tasks.filter fun row => row.queue = queue ∧ row.dedupKey = some key).map TaskRow.id

/-- Requests with this queue and key take turns. Their calls return; a lookup happens only
while no other one is between its lookup and its `COMMIT`; who finds no row can insert one;
and with the empty key, which is not looked up, there is one request only. -/
def TakesTurns (queue key : String) (s : Sys) (a : Action) : Prop :=
  match a with
  | .post req _ => req.OfPair queue key → key = "" →
      req.Creatable ∧ ∀ post ∈ s.posts, ¬ post.req.OfPair queue key
  | .postStep i reply => ∀ post ∈ s.posts[i]?, post.req.OfPair queue key →
      reply.returns = true ∧ (post.pc = .select key →
        (∀ other ∈ s.posts, other.req.OfPair queue key → ¬ other.InWindow) ∧
          (s.pairIds queue key = [] → post.req.Creatable))
  | _ => True

instance (s : Sys) : DecidablePred (TakesTurns queue key s)
  | .post req _ => inferInstanceAs (Decidable (req.OfPair queue key → key = "" →
      req.Creatable ∧ ∀ post ∈ s.posts, ¬ post.req.OfPair queue key))
  | .postStep i reply => inferInstanceAs (Decidable (
      ∀ post ∈ s.posts[i]?, post.req.OfPair queue key →
      reply.returns = true ∧ (post.pc = .select key →
        (∀ other ∈ s.posts, other.req.OfPair queue key → ¬ other.InWindow) ∧
          (s.pairIds queue key = [] → post.req.Creatable))))
  | .requeue _ _ | .cancel _ | .jobStep _ _ | .produce _ _ _ | .requeueStep _ _
  | .deliver _ _ _ | .adopt _ _ _ _ | .handler _ _ | .heartbeat _ | .promote _ _ | .expire _ =>
    isTrue trivial

/-! ### What a request of the pair knows -/

/-- Where a request of the pair stands, and what is then in the table and on record. -/
def Standing (queue key : String) (s : Sys) (post : Post) : Prop :=
  match post.pc with
  | .select key' => key' = key
  | .insert | .commit => post.req.Creatable ∧ s.pairIds queue key = []
  | .commitFound taskId => s.pairIds queue key = [taskId] ∧ taskId ≠ post.taskId
  | .dispatch | .publish _ => post.req.Creatable ∧ s.pairIds queue key = [post.taskId]
  | .ended none => False
  | .ended (some ⟨taskId, true⟩) => s.pairIds queue key = [taskId] ∧ taskId ≠ post.taskId ∧
      ∀ x ∈ s.enqueued, x.2.taskId ≠ post.taskId
  | .ended (some ⟨taskId, false⟩) => s.pairIds queue key = [taskId] ∧ taskId = post.taskId ∧
      ∃ x ∈ s.enqueued, x.2.taskId = post.taskId

/-- The requests of the pair take turns, and at most one row is theirs. -/
structure PairInv (queue key : String) (s : Sys) : Prop where
  standing : ∀ post ∈ s.posts, post.req.OfPair queue key → s.Standing queue key post
  turns : Indexed.Apart (fun x y : Post => x.req.OfPair queue key → y.req.OfPair queue key →
    ¬ (x.InWindow ∧ y.InWindow)) s.posts
  rows : (s.pairIds queue key).length ≤ 1

/-- Rows are of the pair by their untouched columns. -/
theorem pairIds_of_core (hcore : s'.db.tasks.map TaskRow.core = s.db.tasks.map TaskRow.core) :
    s'.pairIds queue key = s.pairIds queue key := by
  have hkept : ∀ t : Sys, t.pairIds queue key = ((t.db.tasks.map TaskRow.core).filter
      fun row => row.queue = queue ∧ row.dedupKey = some key).map TaskRow.id := by
    intro t
    rw [pairIds, List.filter_map, List.map_map]
    rfl
  rw [hkept, hkept, hcore]

/-- What a request knows stays true while the rows of the pair stay and nothing is sent for
its task. -/
theorem Standing.mono {post : Post} (h : s.Standing queue key post)
    (hids : s'.pairIds queue key = s.pairIds queue key) (hgrow : s.enqueued <+: s'.enqueued)
    (hsent : ∀ x ∈ s'.enqueued, x.2.taskId = post.taskId → x ∈ s.enqueued) :
    s'.Standing queue key post := by
  obtain ⟨req, taskId, pc⟩ := post
  cases pc with
  | select key' => exact h
  | insert | commit | commitFound found | dispatch | publish envelope =>
    simp only [Standing, hids] at h ⊢
    exact h
  | ended response =>
    match response, h with
    | some ⟨found, true⟩, h =>
      simp only [Standing, hids] at h ⊢
      exact ⟨h.1, h.2.1, fun x hx hid => h.2.2 x (hsent x hx hid) hid⟩
    | some ⟨found, false⟩, h =>
      simp only [Standing, hids] at h ⊢
      obtain ⟨x, hx, hid⟩ := h.2.2
      exact ⟨h.1, h.2.1, x, hgrow.subset hx, hid⟩

/-! ### A request of the pair moves -/

section Moves

variable {i : ℕ} {post : Post} {out : Post.Outcome}

theorem pairIds_insertTask (hpair : post.req.OfPair queue key)
    (hdb : s'.db = s.db.insertTask (post.req.row post.taskId)) :
    s'.pairIds queue key = s.pairIds queue key ++ [post.taskId] := by
  simp [pairIds, hdb, Db.insertTask, CreateTaskRequest.row, hpair.1, hpair.2]

/-- A move of a request leaves the rows of the pair alone, unless the request is of the pair
and commits its row. -/
theorem pairIds_setPost (hmove : post.Moves s.stores s.waiting out)
    (hother : ¬ (post.req.OfPair queue key ∧ post.pc = .commit)) :
    (s.setPost i post out).pairIds queue key = s.pairIds queue key := by
  rcases hmove.db_cases with hdb | ⟨hpc, hdb⟩
  · simp [pairIds, hdb]
  · have hrow : ¬ ((post.req.row post.taskId).queue = queue ∧
        (post.req.row post.taskId).dedupKey = some key) := fun hpair => hother ⟨hpair, hpc⟩
    simp [pairIds, hdb, Db.insertTask, hrow]

theorem findDedup_eq_none_iff :
    s.db.findDedup queue key = none ↔ s.pairIds queue key = [] := by
  simp [Db.findDedup, pairIds, List.filter_eq_nil_iff]

theorem mem_pairIds_of_findDedup {row : TaskRow} (h : s.db.findDedup queue key = some row) :
    row ∈ s.db.tasks ∧ row.id ∈ s.pairIds queue key := by
  have hmem := List.mem_of_find?_eq_some h
  refine ⟨hmem, List.mem_map_of_mem (List.mem_filter.mpr ⟨hmem, ?_⟩)⟩
  simpa using List.find?_some h

/-- What a call of the pair that returns leaves behind is what its request then knows. -/
theorem PairInv.standing_self (h : PairInv queue key s) (hbooks : s.EnqueueInv)
    (hpost : s.posts[i]? = some post) (hpair : post.req.OfPair queue key)
    (hturn : post.pc = .select key → s.pairIds queue key = [] → post.req.Creatable)
    (hproceeds : post.Proceeds s.stores s.waiting out) :
    (s.setPost i post out).Standing queue key out.post := by
  have hmem := List.mem_of_getElem? hpost
  have hold := h.standing post hmem hpair
  unfold Standing at hold
  cases hproceeds with
  | found key' row hpc hrow =>
    rw [hpc] at hold
    subst hold
    rw [hpair.1] at hrow
    obtain ⟨hrow, hid⟩ := mem_pairIds_of_findDedup hrow
    -- one row at most, so it is this one
    have hone : s.pairIds queue key' = [row.id] := by
      match hids : s.pairIds queue key', h.rows, hid with
      | [taskId], _, hid => rw [List.mem_singleton.mp hid]
    exact ⟨hone, hbooks.uncommitted post hmem (by simp [Post.Uncommitted, hpc]) row hrow⟩
  | notFound key' hpc hrow =>
    rw [hpc] at hold
    subst hold
    rw [hpair.1] at hrow
    have hnone := findDedup_eq_none_iff.mp hrow
    exact ⟨hturn hpc hnone, hnone⟩
  | inserted hpc =>
    rw [hpc] at hold
    exact hold
  | committed hpc =>
    rw [hpc] at hold
    refine ⟨hold.1, ?_⟩
    rw [pairIds_insertTask hpair rfl, hold.2, List.nil_append]
    rfl
  | answered taskId hpc =>
    rw [hpc] at hold
    refine ⟨hold.1, hold.2, fun x hx => ?_⟩
    simp only [setPost_enqueued, Option.map_none, Option.toList_none, List.append_nil] at hx
    exact hbooks.unsent post hmem (by simp [Post.Ended, hpc]) x hx
  | prepared now hpc =>
    rw [hpc] at hold
    exact hold
  | scheduled now at_ runAt hpc =>
    rw [hpc] at hold
    refine ⟨hold.2, rfl, (post.req.queue, post.req.envelope post.taskId now), ?_, rfl⟩
    simp
  | naive runAt hpc hrunAt hnaive =>
    -- the comparison does not raise for a request that can be created
    rw [hpc] at hold
    have hcomparable := hold.1.2
    simp [CreateTaskRequest.comparable, hrunAt, hnaive] at hcomparable
  | published envelope hpc =>
    rw [hpc] at hold
    obtain ⟨now, rfl⟩ := hbooks.publishes post hmem envelope hpc
    refine ⟨hold.2, rfl, (post.req.queue, post.req.envelope post.taskId now), ?_, rfl⟩
    simp

/-- The other requests of the pair keep what they know. When a row is committed, nobody else
of the pair is past the lookup. -/
theorem PairInv.standing_other (h : PairInv queue key s) (hbooks : s.EnqueueInv)
    (hpost : s.posts[i]? = some post) (hmove : post.Moves s.stores s.waiting out) {j : ℕ}
    {other : Post} (hne : j ≠ i) (hother : s.posts[j]? = some other)
    (hpair : other.req.OfPair queue key) :
    (s.setPost i post out).Standing queue key other := by
  have hold := h.standing other (List.mem_of_getElem? hother) hpair
  by_cases hcommit : post.req.OfPair queue key ∧ post.pc = .commit
  · have hself := h.standing post (List.mem_of_getElem? hpost) hcommit.1
    have hnone : s.pairIds queue key = [] := by
      unfold Standing at hself
      rw [hcommit.2] at hself
      exact hself.2
    have hwindow : ¬ other.InWindow := fun hin =>
      h.turns hother hpost hne hpair hcommit.1 ⟨hin, Or.inr hcommit.2⟩
    obtain ⟨req, taskId, pc⟩ := other
    cases pc with
    | select key' => exact hold
    | insert => exact absurd (Or.inl rfl) hwindow
    | commit => exact absurd (Or.inr rfl) hwindow
    | commitFound | dispatch | publish => simp [Standing, hnone] at hold
    | ended response =>
      match response, hold with
      | some ⟨found, true⟩, hold | some ⟨found, false⟩, hold => simp [Standing, hnone] at hold
  · refine hold.mono (pairIds_setPost hmove hcommit) ?_ fun x hx hid => ?_
    · rw [setPost_enqueued]
      exact List.prefix_append _ _
    · rcases hbooks.enqueued_post hpost hmove x hx with hx | ⟨-, -, now, henvelope⟩
      · exact hx
      · -- what is sent is for the request's own task
        rw [henvelope] at hid
        exact absurd hid (hbooks.distinct hpost hother hne.symm)

/-- A move of one request keeps the invariant, if a request of the pair takes its turn. -/
theorem PairInv.post_step (h : PairInv queue key s) (hbooks : s.EnqueueInv)
    (hpost : s.posts[i]? = some post) (hmove : post.Moves s.stores s.waiting out)
    (hturn : post.req.OfPair queue key → post.Proceeds s.stores s.waiting out ∧
      (post.pc = .select key →
        (∀ other ∈ s.posts, other.req.OfPair queue key → ¬ other.InWindow) ∧
          (s.pairIds queue key = [] → post.req.Creatable))) :
    PairInv queue key (s.setPost i post out) := by
  have hmem := List.mem_of_getElem? hpost
  have hreq := hmove.frame.1
  refine ⟨?_, ?_, ?_⟩
  · rw [setPost_posts]
    apply Indexed.forall_mem_set_of_ne
    · intro j other hne hother hpair
      exact h.standing_other hbooks hpost hmove hne hother hpair
    · intro hpair
      rw [hreq] at hpair
      obtain ⟨hproceeds, hfree⟩ := hturn hpair
      exact h.standing_self hbooks hpost hpair (fun hpc => (hfree hpc).2) hproceeds
  · apply h.turns.set fun x y hxy hy hx hin => hxy hx hy hin.symm
    rintro j other hne hother hpair hpair' ⟨hin, hin'⟩
    rw [hreq] at hpair
    rcases hmove.inWindow_cases hin with hbefore | ⟨key', hpc⟩
    · exact h.turns hpost hother hne.symm hpair hpair' ⟨hbefore, hin'⟩
    · -- it has just looked, and then nobody else of the pair was on the way
      have hkey : key' = key := by
        have hold := h.standing post hmem hpair
        unfold Standing at hold
        rwa [hpc] at hold
      subst hkey
      exact ((hturn hpair).2 hpc).1 other (List.mem_of_getElem? hother) hpair' hin'
  · by_cases hcommit : post.req.OfPair queue key ∧ post.pc = .commit
    · have hold := h.standing post hmem hcommit.1
      unfold Standing at hold
      rw [hcommit.2] at hold
      rcases hmove.db_cases with hdb | ⟨-, hdb⟩
      · simp [pairIds, hdb]
        simpa [pairIds] using h.rows
      · rw [pairIds_insertTask (s := s) hcommit.1 hdb, hold.2]
        simp
    · rw [pairIds_setPost hmove hcommit]
      exact h.rows

/-- A row of the pair belongs to a request of the pair. -/
theorem EnqueueInv.exists_owner (h : s.EnqueueInv) {taskId : Uuid}
    (hmem : taskId ∈ s.pairIds queue key) :
    ∃ post ∈ s.posts, post.req.OfPair queue key ∧ post.taskId = taskId := by
  obtain ⟨row, hrow, rfl⟩ := List.mem_map.mp hmem
  obtain ⟨htask, hof⟩ := List.mem_filter.mp hrow
  obtain ⟨post, hpost, -, hid, hcore⟩ := h.exists_post htask
  have hqueue : row.core.queue = (post.req.row post.taskId).core.queue := by rw [hcore]
  have hkey : row.core.dedupKey = (post.req.row post.taskId).core.dedupKey := by rw [hcore]
  have hpair := of_decide_eq_true hof
  exact ⟨post, hpost, ⟨hqueue.symm.trans hpair.1, hkey.symm.trans hpair.2⟩, hid⟩

/-- Without a request there is no row. -/
theorem EnqueueInv.pairIds_eq_nil (h : s.EnqueueInv)
    (hnone : ∀ post ∈ s.posts, ¬ post.req.OfPair queue key) : s.pairIds queue key = [] := by
  rw [List.eq_nil_iff_forall_not_mem]
  intro taskId hmem
  obtain ⟨post, hpost, hpair, -⟩ := h.exists_owner hmem
  exact hnone post hpost hpair

/-- A request that has just arrived knows nothing yet. -/
theorem PairInv.posted {req : CreateTaskRequest} {taskId : Uuid} (h : PairInv queue key s)
    (hbooks : s.EnqueueInv) (hfirst : req.OfPair queue key → key = "" →
      req.Creatable ∧ ∀ post ∈ s.posts, ¬ post.req.OfPair queue key) :
    PairInv queue key { s with posts := s.posts ++ [Post.begin req taskId] } := by
  have hbegin : req.OfPair queue key →
      (Post.begin req taskId).pc = if key = "" then .insert else .select key := by
    intro hpair
    simp only [Post.begin, req.looksUp_eq hpair]
    split_ifs <;> rfl
  refine ⟨?_, ?_, h.rows⟩
  · apply Indexed.forall_mem_append_singleton h.standing
    intro hpair
    unfold Standing
    rw [hbegin hpair]
    split_ifs with hkey
    · obtain ⟨hcreatable, hfirst⟩ := hfirst hpair hkey
      exact ⟨hcreatable, hbooks.pairIds_eq_nil hfirst⟩
    · rfl
  · apply h.turns.append_singleton fun x y hxy hy hx hin => hxy hx hy hin.symm
    rintro other hother hpair hpair' ⟨hin, hin'⟩
    by_cases hkey : key = ""
    · exact (hfirst hpair hkey).2 other hother hpair'
    · rw [Post.InWindow, hbegin hpair, if_neg hkey] at hin
      simp at hin

end Moves

theorem PairInv.step (h : PairInv queue key s) (hbooks : s.EnqueueInv)
    (ha : TakesTurns queue key s a) (hstep : s.step a = some s') : PairInv queue key s' := by
  have hmoves := moves_of_step hstep
  rcases hmoves.control_cases with
    ⟨i, reply, -, -, rfl, -⟩ | ⟨req, taskId, rfl, hfresh, rfl⟩ |
      ⟨q, envelope, hfresh, hposts, henqueued, hdb⟩ | ⟨hposts, henqueued, hcore⟩
  · obtain ⟨post, out, hpost, hanswer, rfl⟩ := step_postStep hstep
    refine h.post_step hbooks hpost (Post.moves_of_answer hanswer) fun hpair => ?_
    obtain ⟨hreturns, hfree⟩ := ha post hpost hpair
    obtain ⟨now, draw, rfl⟩ := Reply.eq_ok_of_returns hreturns
    exact ⟨Post.proceeds_of_proceed hanswer, hfree⟩
  · exact h.posted hbooks ha
  · have hids : s'.pairIds queue key = s.pairIds queue key := by rw [pairIds, hdb, pairIds]
    refine ⟨fun post hpost hpair => ?_, hposts ▸ h.turns, hids ▸ h.rows⟩
    rw [hposts] at hpost
    refine (h.standing post hpost hpair).mono hids ?_ fun x hx hid => ?_
    · rw [henqueued]
      exact List.prefix_append _ _
    · rw [henqueued, List.mem_append, List.mem_singleton] at hx
      rcases hx with hx | rfl
      · exact hx
      · exact absurd hid.symm (hfresh.1 post hpost)
  · have hids : s'.pairIds queue key = s.pairIds queue key := pairIds_of_core hcore
    refine ⟨fun post hpost hpair => ?_, hposts ▸ h.turns, hids ▸ h.rows⟩
    rw [hposts] at hpost
    exact (h.standing post hpost hpair).mono hids (henqueued ▸ List.prefix_refl _)
      fun x hx _ => henqueued ▸ hx

theorem pairInv_of_reaches (h : Transition.ReachesWhen step (TakesTurns queue key) init s) :
    PairInv queue key s := by
  apply h.invariant_along (I := PairInv queue key)
  · exact ⟨by simp [init], Indexed.Apart.nil, by simp [pairIds, init, Db.empty]⟩
  · intro u b v hrun hinv hb hstep
    have hreach : u.Reachable := hrun.reaches
    exact hinv.step hreach.enqueueInv hb hstep

/-! ### One task for all requests -/

/-- While the requests take turns, no call of theirs is refused. -/
theorem PairInv.progress (h : PairInv queue key s) (hbooks : s.EnqueueInv) {i : ℕ} {post : Post}
    (hpost : s.posts[i]? = some post) (hpair : post.req.OfPair queue key)
    (hactive : ¬ post.Ended) (now draw : ℚ) :
    (s.step (.postStep i (.ok now draw))).isSome := by
  have hmem := List.mem_of_getElem? hpost
  have hsome : (post.proceed s.stores s.waiting now).isSome := by
    have hstanding := h.standing post hmem hpair
    unfold Standing at hstanding
    cases hpc : post.pc with
    | select key' =>
      simp only [Post.proceed, hpc]
      cases s.stores.db.findDedup post.req.queue key' <;> rfl
    | insert =>
      rw [hpc] at hstanding
      have hinsertable : s.db.Insertable (post.req.row post.taskId) := by
        refine ⟨hstanding.1.1 post.taskId, fun other hother => ⟨?_, fun hsame => ?_⟩⟩
        · exact hbooks.uncommitted post hmem (by simp [Post.Uncommitted, hpc]) other hother
        · -- a row of the pair, but there is none
          have hrow : other.queue = queue ∧ other.dedupKey = some key :=
            ⟨hsame.1.trans hpair.1, hsame.2.1.trans hpair.2⟩
          have hin : other.id ∈ s.pairIds queue key :=
            List.mem_map_of_mem (List.mem_filter.mpr ⟨hother, by simpa using hrow⟩)
          simp [hstanding.2] at hin
      have hwaiting : ∀ other ∈ s.waiting, other.id ≠ (post.req.row post.taskId).id ∧
          ¬ Db.SameDedup other (post.req.row post.taskId) := by
        intro other hother
        obtain ⟨rival, hrival, hrow⟩ := List.mem_filterMap.mp hother
        simp only [Post.inserted] at hrow
        split_ifs at hrow with hcommit
        obtain rfl := Option.some.inj hrow
        obtain ⟨j, hj⟩ := List.mem_iff_getElem?.mp hrival
        have hne : j ≠ i := by
          rintro rfl
          obtain rfl := Option.mem_unique hj hpost
          simp [hpc] at hcommit
        refine ⟨hbooks.distinct hj hpost hne, fun hsame => ?_⟩
        exact h.turns hj hpost hne ⟨hsame.1.trans hpair.1, hsame.2.1.trans hpair.2⟩ hpair
          ⟨Or.inr hcommit, Or.inl hpc⟩
      simp only [Post.proceed, hpc]
      rw [if_pos ⟨hinsertable, hwaiting⟩]
      rfl
    | dispatch =>
      simp only [Post.proceed, hpc]
      split
      · rfl
      · split <;> rfl
    | commit | commitFound | publish => simp [Post.proceed, hpc]
    | ended response => exact absurd ⟨response, hpc⟩ hactive
  obtain ⟨out, hout⟩ := Option.isSome_iff_exists.mp hsome
  simp [Sys.step, hpost, stepPost, Post.answer, hout]

/-- A request of the pair that is over was answered with the id of the pair's row. -/
theorem PairInv.response_of_ended (h : PairInv queue key s) {post : Post} (hpost : post ∈ s.posts)
    (hpair : post.req.OfPair queue key) (hended : post.Ended) :
    ∃ taskId, s.pairIds queue key = [taskId] ∧
      (post.pc = .ended (some ⟨taskId, false⟩) ∧ taskId = post.taskId ∧
          (∃ x ∈ s.enqueued, x.2.taskId = post.taskId) ∨
        post.pc = .ended (some ⟨taskId, true⟩) ∧ taskId ≠ post.taskId ∧
          ∀ x ∈ s.enqueued, x.2.taskId ≠ post.taskId) := by
  have hstanding := h.standing post hpost hpair
  obtain ⟨response, hpc⟩ := hended
  unfold Standing at hstanding
  rw [hpc] at hstanding
  match response, hpc, hstanding with
  | some ⟨taskId, true⟩, hpc, hstanding => exact ⟨taskId, hstanding.1, Or.inr ⟨hpc, hstanding.2⟩⟩
  | some ⟨taskId, false⟩, hpc, hstanding => exact ⟨taskId, hstanding.1, Or.inl ⟨hpc, hstanding.2⟩⟩

/-- Task ids tell the envelopes on record apart. -/
theorem EnqueueInv.index_eq (h : s.EnqueueInv) {k l : ℕ} {x y : String × TaskEnvelope}
    (hk : s.enqueued[k]? = some x) (hl : s.enqueued[l]? = some y)
    (hid : x.2.taskId = y.2.taskId) : k = l := by
  have hmap : (s.enqueued.map fun x => x.2.taskId)[k]? =
      (s.enqueued.map fun x => x.2.taskId)[l]? := by
    rw [List.getElem?_map, List.getElem?_map, hk, hl, Option.map_some, Option.map_some, hid]
  obtain ⟨hlt, -⟩ := List.getElem?_eq_some_iff.mp hk
  exact (List.getElem?_inj (by simpa using hlt) h.nodup).mp hmap

/-- **Idempotent enqueue, when requests take turns.** In every run in which the requests with
one queue and dedup key take turns, none of them fails or is refused by the store; and when
all of them are over, there is one row for the queue and key, every request was answered
with its id, exactly one as the creator, and exactly one envelope was handed to the
broker. -/
theorem dedup_idempotent_of_turns (queue key : String)
    (h : Transition.ReachesWhen step (TakesTurns queue key) init s) :
    (∀ i post, s.posts[i]? = some post → post.req.OfPair queue key → post.pc ≠ .ended none ∧
      (¬ post.Ended → ∀ now draw, (s.step (.postStep i (.ok now draw))).isSome)) ∧
    ((∃ post ∈ s.posts, post.req.OfPair queue key) →
      (∀ post ∈ s.posts, post.req.OfPair queue key → post.Ended) →
      ∃ taskId, s.pairIds queue key = [taskId] ∧
        (∀ post ∈ s.posts, post.req.OfPair queue key →
          ∃ deduplicated, post.pc = .ended (some ⟨taskId, deduplicated⟩)) ∧
        (∃! i : ℕ, ∃ post : Post, s.posts[i]? = some post ∧ post.req.OfPair queue key ∧
          post.pc = .ended (some ⟨taskId, false⟩)) ∧
        ∃! k : ℕ, ∃ x : String × TaskEnvelope, s.enqueued[k]? = some x ∧
          ∃ post ∈ s.posts, post.req.OfPair queue key ∧ x.2.taskId = post.taskId) := by
  have hinv := pairInv_of_reaches h
  have hreach : s.Reachable := h.reaches
  have hbooks := hreach.enqueueInv
  refine ⟨fun i post hpost hpair => ⟨fun hfailed => ?_, fun hactive =>
    hinv.progress hbooks hpost hpair hactive⟩, ?_⟩
  · obtain ⟨taskId, -, ⟨hpc, -⟩ | ⟨hpc, -⟩⟩ :=
      hinv.response_of_ended (List.mem_of_getElem? hpost) hpair ⟨none, hfailed⟩ <;>
      simp [hfailed] at hpc
  rintro ⟨first, hfirst, hfirstPair⟩ hall
  obtain ⟨taskId, hids, -⟩ :=
    hinv.response_of_ended hfirst hfirstPair (hall first hfirst hfirstPair)
  -- all answers name the one row there is
  have hanswers : ∀ post ∈ s.posts, post.req.OfPair queue key →
      post.pc = .ended (some ⟨taskId, false⟩) ∧ taskId = post.taskId ∧
          (∃ x ∈ s.enqueued, x.2.taskId = post.taskId) ∨
        post.pc = .ended (some ⟨taskId, true⟩) ∧ taskId ≠ post.taskId ∧
          ∀ x ∈ s.enqueued, x.2.taskId ≠ post.taskId := by
    intro post hpost hpair
    obtain ⟨id, hids', hanswer⟩ := hinv.response_of_ended hpost hpair (hall post hpost hpair)
    obtain rfl : taskId = id := by simpa [hids] using hids'
    exact hanswer
  have hrow : taskId ∈ s.pairIds queue key := by simp [hids]
  obtain ⟨owner, howner, hpair, hid⟩ := hbooks.exists_owner hrow
  obtain ⟨hpc, -, x, hx, hxid⟩ | ⟨-, hne, -⟩ := hanswers owner howner hpair
  swap
  · exact absurd hid.symm hne
  obtain ⟨i, hi⟩ := List.mem_iff_getElem?.mp howner
  obtain ⟨k, hk⟩ := List.mem_iff_getElem?.mp hx
  refine ⟨taskId, hids, fun post hpost hpair' => ?_, ⟨i, ⟨owner, hi, hpair, hpc⟩, ?_⟩,
    ⟨k, ⟨x, hk, owner, howner, hpair, hxid⟩, ?_⟩⟩
  · rcases hanswers post hpost hpair' with ⟨hpc', -⟩ | ⟨hpc', -⟩
    · exact ⟨false, hpc'⟩
    · exact ⟨true, hpc'⟩
  · -- a second creator would have drawn the same id
    rintro j ⟨post, hj, hpair', hpc'⟩
    rcases hanswers post (List.mem_of_getElem? hj) hpair' with ⟨-, hid', -⟩ | ⟨hdup, -⟩
    · by_contra hji
      exact hbooks.distinct hj hi hji (hid'.symm.trans hid.symm)
    · simp [hpc'] at hdup
  · rintro l ⟨y, hl, post, hpost, hpair', hyid⟩
    rcases hanswers post hpost hpair' with ⟨-, hid', -⟩ | ⟨-, -, hunsent⟩
    · exact hbooks.index_eq hl hk (hyid.trans (hid'.symm.trans (hid.symm.trans hxid.symm)))
    · exact absurd hyid (hunsent y (List.mem_of_getElem? hl))

/-- A request with queue `q` and this dedup key. -/
def keyedRequest (key : String) : CreateTaskRequest :=
  { queue := "q", taskName := "t", payload := .null, dedupKey := some key }

/-- The theorem at two requests, one after the other. -/
theorem dedup_idempotent_of_turns_two : ∃ (s : Sys) (taskId : Uuid),
    s.posts.length = 2 ∧ (∀ post ∈ s.posts, post.req.OfPair "q" "k") ∧
    s.pairIds "q" "k" = [taskId] ∧
    ∀ post ∈ s.posts, post.req.OfPair "q" "k" →
      ∃ deduplicated, post.pc = .ended (some ⟨taskId, deduplicated⟩) := by
  obtain ⟨s, hreach, hlength, hpairs, hended⟩ := Transition.exists_reachesWhen_of_check step
    (TakesTurns "q" "k") init
    (accept 0 (keyedRequest "k") ⟨1⟩ ++ [.post (keyedRequest "k") ⟨2⟩] ++
      List.replicate 2 (.postStep 1 (.ok 0 0)))
    (fun s => s.posts.length = 2 ∧ (∀ post ∈ s.posts, post.req.OfPair "q" "k") ∧
      ∀ post ∈ s.posts, post.Ended) (by decide +kernel)
  have hexists : ∃ post ∈ s.posts, post.req.OfPair "q" "k" := by
    obtain ⟨post, hpost⟩ := List.exists_mem_of_length_pos (l := s.posts) (by omega)
    exact ⟨post, hpost, hpairs post hpost⟩
  obtain ⟨taskId, hids, hanswers, -⟩ := (dedup_idempotent_of_turns "q" "k" hreach).2 hexists
    fun post hpost _ => hended post hpost
  exact ⟨s, taskId, hlength, hpairs, hids, hanswers⟩

/-! ### Requests that do not take turns -/

/-- A row of the pair is there, and a request of the pair still wants to insert its own, or
has failed. -/
structure Refused (queue key : String) (i : ℕ) (s : Sys) : Prop where
  row : s.pairIds queue key ≠ []
  post : ∃ post, s.posts[i]? = some post ∧ post.req.OfPair queue key ∧
    (post.pc = .insert ∨ post.pc = .ended none)

theorem pairIds_grow (hmoves : s.Moves a s') (h : s.pairIds queue key ≠ []) :
    s'.pairIds queue key ≠ [] := by
  rcases hmoves.rows_cases with hcore | ⟨i, reply, post, -, -, -, -, hrows⟩
  · rwa [pairIds_of_core hcore]
  · rw [pairIds, hrows]
    simp only [List.filter_append, List.map_append]
    exact fun hnil => h (List.append_eq_nil_iff.mp hnil).1

/-- The `INSERT` does not return when there is a row of the pair. -/
theorem not_proceeds_of_row {post : Post} {out : Post.Outcome} (hpc : post.pc = .insert)
    (hpair : post.req.OfPair queue key) (hrow : s.pairIds queue key ≠ []) :
    ¬ post.Proceeds s.stores s.waiting out := by
  intro hproceeds
  obtain ⟨taskId, hmem⟩ := List.exists_mem_of_ne_nil _ hrow
  obtain ⟨other, hother, -⟩ := List.mem_map.mp hmem
  obtain ⟨htask, hof⟩ := List.mem_filter.mp hother
  obtain ⟨hqueue, hkey⟩ := of_decide_eq_true hof
  cases hproceeds with
  | inserted _ hinsertable =>
    refine (hinsertable.2 other htask).2 ⟨hqueue.trans hpair.1.symm, hkey.trans hpair.2.symm, ?_⟩
    simp [hkey]
  | _ => simp_all

/-- The unique index refuses the row, whatever else happens. -/
theorem Refused.step {i : ℕ} (h : Refused queue key i s) (hstep : s.step a = some s') :
    Refused queue key i s' := by
  have hmoves := moves_of_step hstep
  refine ⟨pairIds_grow hmoves h.row, ?_⟩
  obtain ⟨post, hpost, hpair, hpc⟩ := h.post
  rcases hmoves.control_cases with
    ⟨j, reply, mover, out, -, -, hmover, hmove, rfl⟩ | ⟨req, taskId, -, -, rfl⟩ |
      ⟨q, envelope, -, hposts, -⟩ | ⟨hposts, -⟩
  · by_cases hij : i = j
    · subst hij
      obtain rfl := Option.mem_unique hpost hmover
      refine ⟨out.post, Indexed.getElem?_set_of_eq hpost, hmove.frame.1 ▸ hpair, Or.inr ?_⟩
      have hinsert := hpc.resolve_right fun hended => hmove.not_ended ⟨none, hended⟩
      cases hmove with
      | proceeds hproceeds => exact absurd hproceeds (not_proceeds_of_row hinsert hpair h.row)
      | abortedAfter | aborted => rfl
    · refine ⟨post, ?_, hpair, hpc⟩
      rw [setPost_posts, Indexed.getElem?_set_of_ne hij, hpost]
  · exact ⟨post, Indexed.getElem?_of_grow (List.prefix_append _ _) hpost, hpair, hpc⟩
  · exact ⟨post, hposts ▸ hpost, hpair, hpc⟩
  · exact ⟨post, hposts ▸ hpost, hpair, hpc⟩

/-- Two requests with the key, of which the second one has looked for a row too early, or not
at all; the first one runs to its end. -/
def outOfTurn (key : String) : List Action :=
  [.post (keyedRequest key) ⟨1⟩, .post (keyedRequest key) ⟨2⟩] ++
    (if key = "" then [] else [.postStep 0 (.ok 0 0), .postStep 1 (.ok 0 0)]) ++
    List.replicate 4 (.postStep 0 (.ok 0 0))

/-- Of two requests with the key the first one is answered, and the second one never is: its
`INSERT` is refused in every later state, and all it can do is to fail. -/
def LeavesUnanswered (key : String) : Prop :=
  ∃ s : Sys, s.Reachable ∧
    (∃ post, s.posts[0]? = some post ∧ post.req.OfPair "q" key ∧
      post.pc = .ended (some ⟨⟨1⟩, false⟩)) ∧
    ∀ s', Transition.Reaches step s s' → ∃ post, s'.posts[1]? = some post ∧
      post.req.OfPair "q" key ∧ (post.pc = .insert ∨ post.pc = .ended none)

theorem leavesUnanswered_of_check (key : String)
    (hcheck : (Transition.run step init (outOfTurn key)).map (fun s =>
      decide ((s.posts[0]?.any fun post => post.req.OfPair "q" key ∧
          post.pc = .ended (some ⟨⟨1⟩, false⟩)) ∧
        s.pairIds "q" key ≠ [] ∧
        s.posts[1]?.any fun post => post.req.OfPair "q" key ∧ post.pc = .insert)) = some true) :
    LeavesUnanswered key := by
  obtain ⟨s, hrun, hfirst, hrow, hsecond⟩ := Transition.exists_run_of_check step init _ _ hcheck
  obtain ⟨post, hpost, hanswered⟩ := (Option.any_eq_true _ _).mp hfirst
  obtain ⟨late, hlate, hpc⟩ := (Option.any_eq_true _ _).mp hsecond
  have hrefused : Refused "q" key 1 s :=
    ⟨hrow, late, hlate, (of_decide_eq_true hpc).1, Or.inl (of_decide_eq_true hpc).2⟩
  refine ⟨s, .of_run hrun, ⟨post, hpost, of_decide_eq_true hanswered⟩, fun s' hreach => ?_⟩
  exact (hreach.invariant (fun u b v hu hstep => hu.step hstep) hrefused).post

/-- It happens with an ordinary key, when both requests look for a row before one is there,
and with the empty key, for which no request looks. -/
theorem second_request_refused : LeavesUnanswered "k" ∧ LeavesUnanswered "" := by
  constructor
  · exact leavesUnanswered_of_check "k" (by decide +kernel)
  · exact leavesUnanswered_of_check "" (by decide +kernel)

end Sys

end Dtq
